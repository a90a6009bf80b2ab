import RocGui.Boundaries

/-! The nodes that elements become, and the routes their handlers are registered under. -/
namespace ElementNodes

open Actions Boundaries Elements Hosts Methods Styles

variable {α H : Type}

/-! ### Containers, once their children are pushed -/

def containerArgs (builder : ℕ) (label : String) (style : Style) : Checked ContainerArgs := do
  pure ⟨builder, label, ← styleArgs style⟩

def finishRow (host : Host H) (builder : ℕ) (props : Frame) : HostM H ℕ := do
  host.nodeRow (← checked (containerArgs builder props.label props.style))

def finishColumn (host : Host H) (builder : ℕ) (props : Frame) : HostM H ℕ := do
  host.nodeColumn (← checked (containerArgs builder props.label props.style))

def finishDialog (host : Host H) (builder : ℕ) (props : DialogNode α) : HostM H ℕ := do
  host.nodeDialog (← checked (containerArgs builder props.label props.style))

def finishPanel (host : Host H) (builder : ℕ) (props : PanelNode) : HostM H ℕ := do
  host.nodePanel (← checked (containerArgs builder props.label props.style))

def finishPopover (host : Host H) (builder : ℕ) (props : PopoverNode α) : HostM H PopoverIds := do
  ensure (props.delayMs ≤ 60000) "Gui popover delay_ms is at most 60000 milliseconds"
  let style ← checked (styleArgs props.style)
  let placement := match props.placement with
    | .below => 0
    | .above => 1
    | .start => 2
    | .end => 3
  let shortcuts := props.shortcuts.map fun binding =>
    { keys := binding.keys
      focus := match binding.scope with
        | .window => false
        | .focus => true }
  host.nodePopover
    { builder, label := props.label, placement, delayMs := props.delayMs
      hoverEnter := props.onHoverEnter.isSome, hoverExit := props.onHoverExit.isSome
      shortcuts, focusSerial := props.focusSerial, style }

def finishSplit (host : Host H) (builder : ℕ) (props : SplitNode α) : HostM H SplitIds := do
  let style ← checked (styleArgs props.style)
  let axis := match props.axis with
    | .horizontal => 0
    | .vertical => 1
  let side := match props.side with
    | .start => 0
    | .end => 1
  let keys := props.keys.map fun binding => ⟨binding.keys, true⟩
  host.nodeSplit
    { builder, label := props.label, axis, side, size := props.size, min := props.min
      max := props.max, collapsible := props.collapsible, collapsed := props.collapsed
      thickness := props.thickness, keys, style }

def finishDropTarget (host : Host H) (builder : ℕ) (props : DropTargetNode α) : HostM H ℕ := do
  let style ← checked (styleArgs props.style)
  let dropBg ← checked (color props.dropBg)
  let dropBorder ← checked (color props.dropBorder)
  host.nodeDropTarget
    { builder, label := props.label, types := props.types, dropBg, dropBorder, style }

def finishScroll (host : Host H) (child : ℕ) (axis : ScrollAxis) (label : String)
    (style : Style) : HostM H ℕ := do
  let axis := match axis with
    | .vertical => 0
    | .horizontal => 1
    | .both => 2
  let style ← checked (styleArgs style)
  host.nodeScroll ⟨axis, child, label, style⟩

def finishList (host : Host H) (builder : ℕ) (props : VirtualListNode α (Elem α))
    (first owner : ℕ) : HostM H ℕ := do
  let style ← checked (styleArgs props.style)
  let (count, notify) := match props.provider with
    | none => (0, false)
    | some provider => (provider.count, provider.onRange.isSome)
  host.nodeVirtualList
    { builder, count, first, «instance» := owner, notify, name := props.label
      rowHeight := props.rowHeight, rowGap := props.rowGap, style }

def panelHeading (host : Host H) (builder : ℕ) (props : PanelNode) : HostM H Unit :=
  if props.heading ≠ "" then do
    checked (checkFontSize props.headingSize)
    checked (checkFontWeight props.headingWeight)
    let fg ← checked (color props.headingColor)
    let heading ← host.nodeStyledText
      ⟨props.heading, fg, props.headingSize, props.headingWeight, 0, []⟩
    host.childrenPush builder heading
  else pure ()

/-- The rows worth building: the host owns the viewport, so it names them. -/
def rowsWindow (host : Host H) (provider : RowProvider α (Elem α)) (rowHeight owner : ℕ) :
    HostM H (ℕ × ℕ) := do
  let (row, align, serial) := match provider.scrollTo with
    | none => (0, 0, 0)
    | some wanted =>
      let align := match wanted.align with
        | .start => 1
        | .center => 2
        | .end => 3
        | .nearest => 4
      (wanted.row, align, wanted.serial)
  let window ← host.virtualWindow ⟨owner, provider.count, rowHeight, row, align, serial⟩
  ensure (window.1 ≤ window.2 ∧ window.2 ≤ provider.count) "host named rows outside a provided list"
  pure window

/-! ### What routes fire -/

def dropEvent (host : Host H) : HostM H Drop := do
  let event ← host.dropEvent
  let reasonOf := fun code => match code with
    | 0 => RefusedReason.accessDenied
    | 1 => .notFile
    | 3 => .unsupported
    | _ => .unavailable
  pure ⟨event.files, event.refused.map fun item => ⟨item.1, reasonOf item.2⟩⟩

/-- A viewport event rebuilds the list, reports its range, or both. -/
def rowsEvent (host : Host H) (provider : RowProvider α (Elem α)) (current : α) :
    HostM H (Action α) := do
  let event ← host.virtualRowsEvent
  let fallback := if event.refresh then Action.refresh else Action.none
  match provider.onRange, event.report with
  | some handler, true =>
    let proposed := handler current ⟨event.start, event.stop⟩
    pure (Action.deferred do
      let resolved ← proposed.resolveWork
      match resolved.value with
      | .noChange => pure fallback
      | _ => pure resolved)
  | _, _ => pure fallback

/-- One route answers every shortcut of a region; the host names which one matched. -/
def shortcutFired (host : Host H) (bindings : List (Shortcut α)) (message : String) (current : α) :
    HostM H (Action α) := do
  let event ← host.shortcutEvent
  match bindings[event.index]? with
  | some binding => pure (binding.onPress current ⟨event.keys⟩)
  | none => panics message

def targetOf : ℕ → Option ℕ
  | 0 => none
  | value => some value

/-- `to_u32_wrap` of a signed 32-bit value. -/
def toU32Wrap (value : ℤ) : ℕ := (value % 2 ^ 32).toNat

def canvasFired (host : Host H) (canvas : CanvasNode α) (current : α) : HostM H (Action α) := do
  let event ← host.canvasEvent
  let target := targetOf event.target
  match event.phase with
  | 0 => pure (canvas.onPointer current ⟨.begin, event.x, event.y, target⟩)
  | 1 => pure (canvas.onPointer current ⟨.move, event.x, event.y, target⟩)
  | 2 => pure (canvas.onPointer current ⟨.end, event.x, event.y, target⟩)
  | 3 => match canvas.onHover with
    | some handler => pure (handler current ⟨.move, event.x, event.y, target⟩)
    | none => panics "canvas hover delivered without a hover handler"
  | 4 => match canvas.onHover with
    | some handler => pure (handler current ⟨.leave, event.x, event.y, target⟩)
    | none => panics "canvas hover delivered without a hover handler"
  | 5 => match canvas.onWheel with
    | some handler => pure (handler current ⟨event.x, event.y, event.dx, event.dy, target⟩)
    | none => panics "canvas wheel delivered without a wheel handler"
  | 6 => match canvas.onSize with
    | some handler => pure (handler current ⟨toU32Wrap event.x, toU32Wrap event.y⟩)
    | none => panics "canvas size delivered without a size handler"
  | _ => panics "invalid canvas pointer phase"

/-! ### Leaves -/

def runOf (span : TextSpan) : Checked Run := do
  checkFontWeight span.fontWeight
  pure
    { len := span.text.utf8ByteSize, fg := ← color span.fg, bg := ← color span.bg
      fontWeight := span.fontWeight, underline := span.underline, monospace := span.monospace }

def styledTextArgs (value : TextNode) : Checked StyledTextArgs := do
  checkFontSize value.style.fontSize
  checkFontWeight value.style.fontWeight
  let runs ← value.spans.mapM runOf
  pure
    { value := value.value, fg := ← color value.style.fg, fontSize := value.style.fontSize
      fontWeight := value.style.fontWeight, fontFace := fontFace value.style.fontFace, runs }

def chordArgs (value : ChordNode) : Checked ChordArgs := do
  checkFontSize value.style.fontSize
  checkFontWeight value.style.fontWeight
  pure
    { keys := value.keys, fg := ← color value.style.fg, fontSize := value.style.fontSize
      fontWeight := value.style.fontWeight, fontFace := fontFace value.style.fontFace }

def primitiveArgs : CanvasPrimitive → Checked PrimitiveArgs
  | .ellipse key label x y width height fill stroke strokeWidth => do
    pure ⟨0, key, label, x, y, width, height, 0, 0, ← color fill, ← color stroke, strokeWidth, 0,
      "", 0, 0⟩
  | .line key label x1 y1 x2 y2 stroke strokeWidth => do
    pure ⟨1, key, label, x1, y1, 0, 0, x2, y2, ← color .default, ← color stroke, strokeWidth, 0,
      "", 0, 0⟩
  | .rectangle key label x y width height fill stroke strokeWidth radius => do
    pure ⟨2, key, label, x, y, width, height, 0, 0, ← color fill, ← color stroke, strokeWidth,
      radius, "", 0, 0⟩
  | .text key label x y width value fill size align => do
    let textAlign := match align with
      | .start => 0
      | .center => 1
      | .end => 2
    pure ⟨3, key, label, x, y, width, 0, 0, 0, ← color fill, ← color .default, 0, 0, value, size,
      textAlign⟩

def canvasArgs (canvas : CanvasNode α) : Checked CanvasArgs := do
  let width ← length canvas.style.width
  let height ← length canvas.style.height
  let primitives ← canvas.primitives.mapM primitiveArgs
  pure
    { label := canvas.label, primitives, widthKind := width.1, width := width.2
      heightKind := height.1, height := height.2, grow := canvas.style.grow
      bg := ← color canvas.style.bg, borderColor := ← color canvas.style.borderColor
      borderWidth := canvas.style.borderWidth, radius := canvas.style.radius
      hover := canvas.onHover.isSome, wheel := canvas.onWheel.isSome
      size := canvas.onSize.isSome }

def formatCode : ImageFormat → ℕ
  | .bmp => 0
  | .gif => 1
  | .jpeg => 2
  | .png => 3
  | .svg => 4
  | .tiff => 5
  | .webp => 6

def fitCode : ImageFit → ℕ
  | .contain => 0
  | .cover => 1
  | .fill => 2
  | .none => 3
  | .scaleDown => 4

def roleCode : ButtonRole → ℕ
  | .button => 0
  | .tab => 1
  | .selectedTab => 2

def whileEnabled {ε : Type} (enabled : Bool) (handler : α → ε → Action α) (event : ε)
    (current : α) : HostM H (Action α) :=
  pure (if enabled then handler current event else Action.none)

def hoverRoute (active id : ℕ) (handler : Option (α → Hover → Action α))
    (fire : (α → Hover → Action α) → α → String → HostM H (Action α)) (built : Building α H) :
    Checked (Building α H) :=
  match handler with
  | none => pure built
  | some handler => built.register active id (fire handler)

def lowerButton (host : Host H) (button : ButtonNode α) (active : ℕ) (built : Building α H) :
    HostM H (Building α H) := do
  let style ← checked (styleArgs button.style)
  let ids ← host.nodeActionButton
    { caption := button.caption, label := button.label, role := roleCode button.role
      enabled := button.enabled, hoverEnter := button.onHoverEnter.isSome
      hoverExit := button.onHoverExit.isSome, style }
  let hovered := fun handler current _ => whileEnabled button.enabled handler () current
  let built ← checked (built.register active ids.id fun current _ =>
    whileEnabled button.enabled button.onPress () current)
  let built ← checked (hoverRoute active ids.hoverEnter button.onHoverEnter hovered built)
  let built ← checked (hoverRoute active ids.hoverExit button.onHoverExit hovered built)
  pure { built with root := ids.id }

def lowerCheckbox (host : Host H) (checkbox : CheckboxNode α) (active : ℕ)
    (built : Building α H) : HostM H (Building α H) := do
  let style ← checked (styleArgs checkbox.style)
  let id ← host.nodeCheckbox
    { label := checkbox.label, checked := checkbox.checked, enabled := checkbox.enabled
      boxBg := ← checked (color checkbox.boxBg)
      boxCheckedBg := ← checked (color checkbox.boxCheckedBg)
      boxBorder := ← checked (color checkbox.boxBorder)
      markColor := ← checked (color checkbox.markColor), style }
  let built ← checked (built.register active id fun current _ =>
    whileEnabled checkbox.enabled checkbox.onChange ⟨!checkbox.checked⟩ current)
  pure { built with root := id }

def lowerTextarea (host : Host H) (textarea : TextareaNode α) (active : ℕ)
    (built : Building α H) : HostM H (Building α H) := do
  let style ← checked (styleArgs textarea.style)
  let id ← host.nodeTextarea
    { label := textarea.label, value := textarea.value, placeholder := textarea.placeholder
      enabled := textarea.enabled, readOnly := textarea.readOnly, style }
  let built ← checked (built.register active id fun current input =>
    whileEnabled (textarea.enabled && !textarea.readOnly) textarea.onInput ⟨input⟩ current)
  pure { built with root := id }

def lowerTextInput (host : Host H) (input : TextInputNode α) (active : ℕ)
    (built : Building α H) : HostM H (Building α H) := do
  let style ← checked (styleArgs input.style)
  let ids ← host.nodeTextInput
    { label := input.label, value := input.value, placeholder := input.placeholder
      enabled := input.enabled, style }
  let built ← checked (built.register active ids.change fun current value =>
    whileEnabled input.enabled input.onChange ⟨value⟩ current)
  let built ← checked (built.register active ids.submit fun current value =>
    whileEnabled input.enabled input.onSubmit ⟨value⟩ current)
  pure { built with root := ids.id }

def lowerImage (host : Host H) (image : ImageNode) (built : Building α H) :
    HostM H (Building α H) := do
  let style ← checked (styleArgs image.style)
  let id ← host.nodeImage
    { label := image.label, bytes := image.bytes, format := formatCode image.format
      fit := fitCode image.fit, grayscale := image.grayscale, style }
  pure { built with root := id }

def lowerCanvas (host : Host H) (canvas : CanvasNode α) (active : ℕ) (built : Building α H) :
    HostM H (Building α H) := do
  let id ← host.nodeCanvas (← checked (canvasArgs canvas))
  let built ← checked (built.register active id fun current _ => canvasFired host canvas current)
  pure { built with root := id }

/-- A leaf becomes one node, with its routes under the active boundary. -/
def lowerLeaf (host : Host H) (elem : Elem α) (active : ℕ) (built : Building α H) :
    HostM H (Building α H) :=
  match elem with
  | .text value => do
    let id ← host.nodeText value
    pure { built with root := id }
  | .styledText text => do
    let id ← host.nodeStyledText (← checked (styledTextArgs text))
    pure { built with root := id }
  | .chord chord => do
    let id ← host.nodeChord (← checked (chordArgs chord))
    pure { built with root := id }
  | .actionButton button => lowerButton host button active built
  | .checkbox checkbox => lowerCheckbox host checkbox active built
  | .textarea textarea => lowerTextarea host textarea active built
  | .image image => lowerImage host image built
  | .canvas canvas => lowerCanvas host canvas active built
  | .textInput input => lowerTextInput host input active built
  | _ => panics "container sent to leaf lowering"

end ElementNodes
