import RocGui.Elements
import RocGui.RebuildWalks

/-! Lifting a child's element tree to its parent's state: with the explicit stack of `lift_with`, and by
recursion on the tree. -/
namespace ElementLifts

open Actions Elements KeyedFallbacks Methods Styles

variable {α β γ : Type}

section Splitting

def liftSplit : Elem α → Elem α × List (Elem α)
  | .row children props => (.row [] props, children)
  | .column children props => (.column [] props, children)
  | .dialog children props => (.dialog [] props, children)
  | .popover children props => (.popover [] props, children)
  | .split children props => (.split [] props, children)
  | .dropTarget children props => (.dropTarget [] props, children)
  | .panel children props => (.panel [] props, children)
  | .scroll axis content label style => (.scroll axis (.text "") label style, [content])
  | .virtualList list =>
    (.virtualList { list with items := list.items.map fun item => ⟨.text "", item.key⟩ },
      list.items.map (·.content))
  | elem => (elem, [])

def attachItems (children : List (Elem α)) : ℕ → List (VirtualListItem (Elem α)) →
    Checked (List (VirtualListItem (Elem α)))
  | _, [] => .ok []
  | index, item :: rest =>
    match children[index]? with
    | none => .error (.panic "missing lifted virtual item")
    | some content => do return ⟨content, item.key⟩ :: (← attachItems children (index + 1) rest)

def liftAttach : Elem α → List (Elem α) → Checked (Elem α)
  | .row _ props, children => .ok (.row children props)
  | .column _ props, children => .ok (.column children props)
  | .dialog _ props, children => .ok (.dialog children props)
  | .popover _ props, children => .ok (.popover children props)
  | .split _ props, children => .ok (.split children props)
  | .dropTarget _ props, children => .ok (.dropTarget children props)
  | .panel _ props, children => .ok (.panel children props)
  | .scroll axis _ label style, children =>
    match children.head? with
    | none => .error (.panic "missing lifted scroll content")
    | some content => .ok (.scroll axis content label style)
  | .virtualList list, children => do
    return .virtualList { list with items := ← attachItems children 0 list.items }
  | shell, _ => .ok shell

mutual

def nodes : Elem α → ℕ
  | .row children _ | .column children _ | .dialog children _ | .popover children _ | .split children _
  | .dropTarget children _ | .panel children _ => nodesAll children + 1
  | .scroll _ content _ _ => nodes content + 1
  | .virtualList ⟨items, _, _, _, _, _⟩ => nodesItems items + 1
  | _ => 1

def nodesAll : List (Elem α) → ℕ
  | [] => 0
  | elem :: rest => nodes elem + nodesAll rest

def nodesItems : List (VirtualListItem (Elem α)) → ℕ
  | [] => 0
  | ⟨content, _⟩ :: rest => nodes content + nodesItems rest

end

end Splitting

section Lifting

variable (project : β → Option γ) (adapt : Action γ → β → Actions.Work (Action β))

def adaptEvent {ε : Type} (handler : γ → ε → Action γ) (parent : β) (event : ε) : Action β :=
  Action.deferred (match project parent with
    | none => pure Action.none
    | some child => adapt (handler child event) parent)

def projectedTest (test : γ → Checked Bool) (next : β) : Checked Bool :=
  match project next with
  | none => .ok false
  | some value => test value

def keyedRefusal : String := "keyed_col cannot be lifted; construct it at its owning state boundary"

-- `again` stands for `lift_with`, which later renders call
variable (again : Elem γ → Checked (Elem β))

def liftProvider (provider : RowProvider γ (Elem γ)) : RowProvider β (Elem β) where
  count := provider.count
  renderRow index := do again (← provider.renderRow index)
  rowKey := provider.rowKey
  scrollTo := provider.scrollTo
  onRange := match provider.onRange with
    | none => none
    | some handler => some fun parent event => adaptEvent project adapt handler parent event

def liftBound (bound : BoundComponent γ (Elem γ)) : BoundComponent β (Elem β) where
  key := bound.key
  render parent := match project parent with
    | none => .error (.panic "render emitted a removed component")
    | some child => do again (← bound.render child)
  «exists» parent := match project parent with
    | none => .ok false
    | some child => bound.exists child
  remember := match bound.remember with
    | none => none
    | some capture => some fun parent => match project parent with
      | none => .error (.panic "cannot remember a removed boundary")
      | some child => do
        let test ← capture child
        return projectedTest project test
  transparent := bound.transparent

/-- The setter is only handed on, to `adapt`. -/
def liftShell : Elem γ → Checked (Elem β)
  | .text value => .ok (.text value)
  | .styledText text => .ok (.styledText text)
  | .chord chord => .ok (.chord chord)
  | .row _ props => .ok (.row [] props)
  | .column _ props => .ok (.column [] props)
  | .keyedColumn .. => .error (.panic keyedRefusal)
  | .dialog _ props => .ok (.dialog []
      { label := props.label, style := props.style
        onDismiss := fun parent event => adaptEvent project adapt props.onDismiss parent event })
  | .popover _ props =>
    let hoverEnter := match props.onHoverEnter with
      | none => none
      | some handler => some fun parent event => adaptEvent project adapt handler parent event
    let hoverExit := match props.onHoverExit with
      | none => none
      | some handler => some fun parent event => adaptEvent project adapt handler parent event
    let bindings := props.shortcuts.map fun binding =>
      { keys := binding.keys, scope := binding.scope
        onPress := fun parent event => adaptEvent project adapt binding.onPress parent event }
    .ok (.popover []
      { label := props.label, placement := props.placement, delayMs := props.delayMs
        onHoverEnter := hoverEnter, onHoverExit := hoverExit, shortcuts := bindings
        focusSerial := props.focusSerial, style := props.style })
  | .panel _ props => .ok (.panel [] props)
  | .scroll axis _ label style => .ok (.scroll axis (.text "") label style)
  | .virtualList list =>
    let provider := match list.provider with
      | none => none
      | some provider => some (liftProvider project adapt again provider)
    .ok (.virtualList
      { items := list.items.map fun item => ⟨.text "", item.key⟩, label := list.label
        rowHeight := list.rowHeight, rowGap := list.rowGap, style := list.style, provider })
  | .textInput input => .ok (.textInput
      { label := input.label, value := input.value, placeholder := input.placeholder
        enabled := input.enabled
        onChange := fun parent event => adaptEvent project adapt input.onChange parent event
        onSubmit := fun parent event => adaptEvent project adapt input.onSubmit parent event
        style := input.style })
  | .actionButton button =>
    let hoverEnter := match button.onHoverEnter with
      | none => none
      | some handler => some fun parent event => adaptEvent project adapt handler parent event
    let hoverExit := match button.onHoverExit with
      | none => none
      | some handler => some fun parent event => adaptEvent project adapt handler parent event
    .ok (.actionButton
      { caption := button.caption, label := button.label, role := button.role, enabled := button.enabled
        onPress := fun parent event => adaptEvent project adapt button.onPress parent event
        onHoverEnter := hoverEnter, onHoverExit := hoverExit, style := button.style })
  | .checkbox checkbox => .ok (.checkbox
      { label := checkbox.label, checked := checkbox.checked, enabled := checkbox.enabled
        boxBg := checkbox.boxBg, boxCheckedBg := checkbox.boxCheckedBg, boxBorder := checkbox.boxBorder
        markColor := checkbox.markColor
        onChange := fun parent event => adaptEvent project adapt checkbox.onChange parent event
        style := checkbox.style })
  | .textarea textarea => .ok (.textarea
      { label := textarea.label, value := textarea.value, placeholder := textarea.placeholder
        enabled := textarea.enabled, readOnly := textarea.readOnly
        onInput := fun parent event => adaptEvent project adapt textarea.onInput parent event
        style := textarea.style })
  | .image image => .ok (.image image)
  | .split _ props =>
    let keys := props.keys.map fun binding =>
      { keys := binding.keys
        onPress := fun parent event => adaptEvent project adapt binding.onPress parent event }
    .ok (.split []
      { label := props.label, axis := props.axis, side := props.side, size := props.size
        min := props.min, max := props.max, collapsible := props.collapsible
        collapsed := props.collapsed, thickness := props.thickness
        onResize := fun parent event => adaptEvent project adapt props.onResize parent event
        keys, style := props.style })
  | .dropTarget _ props => .ok (.dropTarget []
      { label := props.label, types := props.types
        onDrop := fun parent event => adaptEvent project adapt props.onDrop parent event
        dropBg := props.dropBg, dropBorder := props.dropBorder, style := props.style })
  | .canvas canvas =>
    let onHover := match canvas.onHover with
      | none => none
      | some handler => some fun parent event => adaptEvent project adapt handler parent event
    let onWheel := match canvas.onWheel with
      | none => none
      | some handler => some fun parent event => adaptEvent project adapt handler parent event
    let onSize := match canvas.onSize with
      | none => none
      | some handler => some fun parent event => adaptEvent project adapt handler parent event
    .ok (.canvas
      { label := canvas.label, primitives := canvas.primitives
        onPointer := fun parent event => adaptEvent project adapt canvas.onPointer parent event
        onHover, onWheel, onSize, style := canvas.style })
  | .component bound => .ok (.component (liftBound project again bound))

end Lifting

/-! ### The same by recursion -/

section Handlers

variable (lift : {ε : Type} → (α → ε → Action α) → β → ε → Action β)

def liftDialog (props : DialogNode α) : DialogNode β := ⟨props.label, props.style, lift props.onDismiss⟩

def liftPopover (props : PopoverNode α) : PopoverNode β :=
  ⟨props.label, props.placement, props.delayMs, props.onHoverEnter.map lift, props.onHoverExit.map lift,
    props.shortcuts.map fun binding => ⟨⟨binding.keys, lift binding.onPress⟩, binding.scope⟩,
    props.focusSerial, props.style⟩

def liftButton (button : ButtonNode α) : ButtonNode β :=
  ⟨button.caption, button.label, button.role, button.enabled, lift button.onPress,
    button.onHoverEnter.map lift, button.onHoverExit.map lift, button.style⟩

def liftDivider (props : SplitNode α) : SplitNode β :=
  ⟨props.label, props.axis, props.side, props.size, props.min, props.max, props.collapsible,
    props.collapsed, props.thickness, lift props.onResize,
    props.keys.map fun binding => ⟨binding.keys, lift binding.onPress⟩, props.style⟩

def liftDropTarget (props : DropTargetNode α) : DropTargetNode β :=
  ⟨props.label, props.types, lift props.onDrop, props.dropBg, props.dropBorder, props.style⟩

def liftTextInput (input : TextInputNode α) : TextInputNode β :=
  ⟨input.label, input.value, input.placeholder, input.enabled, lift input.onChange, lift input.onSubmit,
    input.style⟩

def liftCheckbox (checkbox : CheckboxNode α) : CheckboxNode β :=
  ⟨checkbox.label, checkbox.checked, checkbox.enabled, lift checkbox.onChange, checkbox.boxBg,
    checkbox.boxCheckedBg, checkbox.boxBorder, checkbox.markColor, checkbox.style⟩

def liftTextarea (textarea : TextareaNode α) : TextareaNode β :=
  ⟨textarea.label, textarea.value, textarea.placeholder, textarea.enabled, textarea.readOnly,
    lift textarea.onInput, textarea.style⟩

def liftCanvas (canvas : CanvasNode α) : CanvasNode β :=
  ⟨canvas.label, canvas.primitives, lift canvas.onPointer, canvas.onHover.map lift,
    canvas.onWheel.map lift, canvas.onSize.map lift, canvas.style⟩

end Handlers

section Mapping

variable (project : β → Option γ) (adapt : Action γ → β → Actions.Work (Action β))

mutual

/-- Every callback of every element is lifted; a keyed column refuses. -/
def mapped : Elem γ → Checked (Elem β)
  | .component ⟨key, render, mounted, remember, transparent⟩ => .ok (.component
      { key, transparent
        render := fun parent => match project parent with
          | none => .error (.panic "render emitted a removed component")
          | some child => mappedRun (render child)
        «exists» := fun parent => match project parent with
          | none => .ok false
          | some child => mounted child
        remember := remember.map fun capture parent => match project parent with
          | none => .error (.panic "cannot remember a removed boundary")
          | some child => do
            let test ← capture child
            return projectedTest project test })
  | .actionButton button => .ok (.actionButton (liftButton (adaptEvent project adapt) button))
  | .checkbox checkbox => .ok (.checkbox (liftCheckbox (adaptEvent project adapt) checkbox))
  | .textarea textarea => .ok (.textarea (liftTextarea (adaptEvent project adapt) textarea))
  | .image image => .ok (.image image)
  | .canvas canvas => .ok (.canvas (liftCanvas (adaptEvent project adapt) canvas))
  | .column children props => do return .column (← mappedAll children) props
  | .keyedColumn .. => .error (.panic keyedRefusal)
  | .dialog children props => do
    return .dialog (← mappedAll children) (liftDialog (adaptEvent project adapt) props)
  | .popover children props => do
    return .popover (← mappedAll children) (liftPopover (adaptEvent project adapt) props)
  | .panel children props => do return .panel (← mappedAll children) props
  | .row children props => do return .row (← mappedAll children) props
  | .scroll axis content label style => do return .scroll axis (← mapped content) label style
  | .virtualList ⟨items, label, rowHeight, rowGap, style, none⟩ => do
    return .virtualList ⟨← mappedItems items, label, rowHeight, rowGap, style, none⟩
  | .virtualList ⟨items, label, rowHeight, rowGap, style,
      some ⟨count, renderRow, rowKey, scrollTo, onRange⟩⟩ => do
    return .virtualList ⟨← mappedItems items, label, rowHeight, rowGap, style,
      some ⟨count, fun index => mappedRun (renderRow index), rowKey, scrollTo,
        onRange.map (adaptEvent project adapt)⟩⟩
  | .textInput input => .ok (.textInput (liftTextInput (adaptEvent project adapt) input))
  | .split children props => do
    return .split (← mappedAll children) (liftDivider (adaptEvent project adapt) props)
  | .dropTarget children props => do
    return .dropTarget (← mappedAll children) (liftDropTarget (adaptEvent project adapt) props)
  | .styledText text => .ok (.styledText text)
  | .chord chord => .ok (.chord chord)
  | .text value => .ok (.text value)

def mappedAll : List (Elem γ) → Checked (List (Elem β))
  | [] => .ok []
  | elem :: rest => do return (← mapped elem) :: (← mappedAll rest)

def mappedItems : List (VirtualListItem (Elem γ)) → Checked (List (VirtualListItem (Elem β)))
  | [] => .ok []
  | ⟨content, key⟩ :: rest => do return ⟨← mapped content, key⟩ :: (← mappedItems rest)

def mappedRun : Except (Failure Empty) (Elem γ) → Checked (Elem β)
  | .error e => .error e
  | .ok elem => mapped elem

end

end Mapping

/-! ### The recursion of the stack -/

section Recursion

variable (project : β → Option γ) (adapt : Action γ → β → Actions.Work (Action β))

theorem nodes_all (children : List (Elem α)) : nodesAll children = (children.map nodes).sum := by
  induction children with
  | nil => rfl
  | cons elem rest ih => rw [nodesAll, ih, List.map_cons, List.sum_cons]

theorem nodes_items (items : List (VirtualListItem (Elem α))) :
    nodesItems items = ((items.map (·.content)).map nodes).sum := by
  induction items with
  | nil => rfl
  | cons item rest ih =>
    obtain ⟨content, key⟩ := item
    rw [nodesItems, ih, List.map_cons, List.map_cons, List.sum_cons]

theorem nodes_split (elem : Elem α) : nodes elem = ((liftSplit elem).2.map nodes).sum + 1 := by
  cases elem with
  | scroll => simp [nodes, liftSplit]
  | virtualList => simp only [nodes, liftSplit, nodes_items]
  | row | column | dialog | popover | split | dropTarget | panel => simp only [nodes, liftSplit, nodes_all]
  | _ => simp [nodes, liftSplit]

/-- The walk of `lift_with`, whose renderers call `again`. -/
def lifting (again : Elem γ → Checked (Elem β)) :
    RebuildWalks.Rebuilding (Elem γ) (Elem γ) (Elem β) Empty where
  split := liftSplit
  shell := liftShell project adapt again
  attach := liftAttach
  nodes := nodes
  counted := nodes_split

/-- `lift_with`: it runs its walk, and its renderers call itself. -/
def IsLiftWith (lift : Elem γ → Checked (Elem β)) : Prop :=
  ∀ elem, lift elem = (lifting project adapt lift).run elem

theorem mapped_all (children : List (Elem γ)) :
    mappedAll project adapt children = children.mapM (mapped project adapt) := by
  induction children with
  | nil => rfl
  | cons elem rest ih => rw [mappedAll, ih, List.mapM_cons]

theorem mapped_items (items : List (VirtualListItem (Elem γ))) : mappedItems project adapt items = (do
    let contents ← (items.map (·.content)).mapM (mapped project adapt)
    return contents.zipWith (fun content item => ⟨content, item.key⟩) items) := by
  induction items with
  | nil => rfl
  | cons item rest ih =>
    obtain ⟨content, key⟩ := item
    rw [mappedItems, ih, List.map_cons, List.mapM_cons]
    simp only [bind_assoc, pure_bind]
    rfl

theorem mapped_run (run : Except (Failure Empty) (Elem γ)) :
    mappedRun project adapt run = run >>= mapped project adapt := by
  cases run <;> rw [mappedRun] <;> rfl

theorem attach_items {front contents : List (Elem β)} {items : List (VirtualListItem (Elem γ))}
    (hlength : contents.length = items.length) :
    attachItems (front ++ contents) front.length (items.map fun item => ⟨.text "", item.key⟩) =
      .ok (contents.zipWith (fun content item => ⟨content, item.key⟩) items) := by
  induction items generalizing front contents with
  | nil =>
    obtain rfl := List.length_eq_zero_iff.mp hlength
    rfl
  | cons item items ih =>
    cases contents with
    | nil => cases hlength
    | cons content contents =>
      have hnext := @ih (front ++ [content]) contents (Nat.succ.inj hlength)
      rw [List.append_assoc, List.singleton_append, List.length_append, List.length_singleton] at hnext
      rw [List.map_cons, attachItems, List.getElem?_append_right le_rfl, Nat.sub_self]
      dsimp only [List.getElem?_cons_zero]
      rw [hnext]
      rfl

theorem mapped_eq (elem : Elem γ) : mapped project adapt elem = (do
    let shell ← liftShell project adapt (mapped project adapt) (liftSplit elem).1
    let children ← (liftSplit elem).2.mapM (mapped project adapt)
    liftAttach shell children) := by
  cases elem with
  | component bound =>
    obtain ⟨key, render, mounted, remember, transparent⟩ := bound
    simp only [mapped, mapped_run, liftSplit, liftShell, liftBound]
    cases remember <;> rfl
  | virtualList list =>
    obtain ⟨items, label, rowHeight, rowGap, style, provider⟩ := list
    have hattach (provider : Option (RowProvider β (Elem β))) : (do
        let items ← mappedItems project adapt items
        return Elem.virtualList ⟨items, label, rowHeight, rowGap, style, provider⟩) = (do
        let contents ← (items.map (·.content)).mapM (mapped project adapt)
        let shells := items.map fun item => ⟨.text "", item.key⟩
        liftAttach (.virtualList ⟨shells, label, rowHeight, rowGap, style, provider⟩) contents) := by
      rw [mapped_items, bind_assoc]
      cases hcontents : (items.map (·.content)).mapM (mapped project adapt) with
      | error e => rfl
      | ok contents =>
        have hlength := RebuildWalks.Rebuilding.mapM_length hcontents
        rw [List.length_map] at hlength
        have hitems := @attach_items _ _ [] _ _ hlength
        rw [List.nil_append, List.length_nil] at hitems
        dsimp only [bind, Except.bind]
        rw [liftAttach, hitems]
        rfl
    simp only [liftSplit, liftShell, List.map_map, Function.comp_def]
    cases provider with
    | none =>
      rw [mapped, hattach]
      rfl
    | some provider =>
      obtain ⟨count, renderRow, rowKey, scrollTo, onRange⟩ := provider
      rw [mapped, hattach]
      simp only [mapped_run, liftProvider]
      cases onRange <;> rfl
  | scroll axis content label style =>
    simp only [mapped, liftSplit, liftShell, List.mapM_cons, List.mapM_nil]
    cases mapped project adapt content <;> rfl
  | row children props | column children props | panel children props =>
    simp only [mapped, mapped_all, liftSplit, liftShell]
    rfl
  | dialog children props | dropTarget children props | split children props =>
    simp only [mapped, mapped_all, liftSplit, liftShell]
    rfl
  | popover children props =>
    obtain ⟨label, placement, delayMs, enter, exit, shortcuts, focusSerial, style⟩ := props
    simp only [mapped, mapped_all, liftSplit, liftShell]
    cases enter <;> cases exit <;> rfl
  | actionButton button =>
    obtain ⟨caption, label, role, enabled, press, enter, exit, style⟩ := button
    cases enter <;> cases exit <;> rfl
  | canvas canvas =>
    obtain ⟨label, primitives, pointer, hover, wheel, size, style⟩ := canvas
    cases hover <;> cases wheel <;> cases size <;> rfl
  | _ => rfl

end Recursion

section Uniqueness

variable {project : β → Option γ} {adapt : Action γ → β → Actions.Work (Action β)}
  {lift : Elem γ → Checked (Elem β)}

/-- `lift_with` is the recursion at a tree where it is at the children and its renderers are the same. -/
theorem lift_step (hlift : IsLiftWith project adapt lift) {elem : Elem γ}
    (hshell : liftShell project adapt lift (liftSplit elem).1 =
      liftShell project adapt (mapped project adapt) (liftSplit elem).1)
    (hchildren : ∀ c ∈ (liftSplit elem).2, lift c = mapped project adapt c) :
    lift elem = mapped project adapt elem := by
  have hrebuild (e : Elem γ) : lift e = (lifting project adapt lift).rebuild e :=
    (hlift e).trans ((lifting project adapt lift).run_rebuild e)
  have hkids : (liftSplit elem).2.mapM (lifting project adapt lift).rebuild =
      (liftSplit elem).2.mapM (mapped project adapt) :=
    RebuildWalks.Rebuilding.mapM_congr fun c hc => (hrebuild c).symm.trans (hchildren c hc)
  rw [hrebuild, (lifting project adapt lift).rebuild_eq, mapped_eq, ← hkids, ← hshell]
  rfl

mutual

theorem lift_mapped (hlift : IsLiftWith project adapt lift) :
    (elem : Elem γ) → lift elem = mapped project adapt elem
  | .component ⟨key, render, mounted, remember, transparent⟩ => by
    refine lift_step hlift ?_ nofun
    refine congrArg (fun f => Except.ok (Elem.component ⟨key, f, _, _, transparent⟩)) (funext fun parent => ?_)
    cases project parent with
    | none => rfl
    | some child => exact lift_run hlift (render child)
  | .row children _ => lift_step hlift rfl (lift_all hlift children)
  | .column children _ => lift_step hlift rfl (lift_all hlift children)
  | .panel children _ => lift_step hlift rfl (lift_all hlift children)
  | .dialog children _ => lift_step hlift rfl (lift_all hlift children)
  | .popover children _ => lift_step hlift rfl (lift_all hlift children)
  | .split children _ => lift_step hlift rfl (lift_all hlift children)
  | .dropTarget children _ => lift_step hlift rfl (lift_all hlift children)
  | .scroll _ content _ _ => lift_step hlift rfl fun c hc => by
    rw [List.mem_singleton.mp hc]
    exact lift_mapped hlift content
  | .virtualList ⟨items, _, _, _, _, none⟩ => lift_step hlift rfl (lift_items hlift items)
  | .virtualList ⟨items, _, _, _, _, some ⟨count, renderRow, rowKey, scrollTo, onRange⟩⟩ => by
    refine lift_step hlift ?_ (lift_items hlift items)
    exact congrArg
      (fun f => Except.ok (Elem.virtualList ⟨_, _, _, _, _, some ⟨count, f, rowKey, scrollTo, _⟩⟩))
      (funext fun index => lift_run hlift (renderRow index))
  | .keyedColumn .. => lift_step hlift rfl nofun
  | .actionButton _ => lift_step hlift rfl nofun
  | .checkbox _ => lift_step hlift rfl nofun
  | .textarea _ => lift_step hlift rfl nofun
  | .image _ => lift_step hlift rfl nofun
  | .canvas _ => lift_step hlift rfl nofun
  | .textInput _ => lift_step hlift rfl nofun
  | .styledText _ => lift_step hlift rfl nofun
  | .chord _ => lift_step hlift rfl nofun
  | .text _ => lift_step hlift rfl nofun

theorem lift_all (hlift : IsLiftWith project adapt lift) :
    (children : List (Elem γ)) → ∀ c ∈ children, lift c = mapped project adapt c
  | [] => nofun
  | elem :: rest => List.forall_mem_cons.mpr ⟨lift_mapped hlift elem, lift_all hlift rest⟩

theorem lift_items (hlift : IsLiftWith project adapt lift) :
    (items : List (VirtualListItem (Elem γ))) → ∀ c ∈ items.map (·.content), lift c = mapped project adapt c
  | [] => nofun
  | ⟨content, _⟩ :: rest => List.forall_mem_cons.mpr ⟨lift_mapped hlift content, lift_items hlift rest⟩

theorem lift_run (hlift : IsLiftWith project adapt lift) :
    (run : Except (Failure Empty) (Elem γ)) → run >>= lift = run >>= mapped project adapt
  | .error _ => rfl
  | .ok elem => lift_mapped hlift elem

end

theorem is_lift_iff : IsLiftWith project adapt lift ↔ lift = mapped project adapt := by
  constructor
  · exact fun hlift => funext (lift_mapped hlift)
  · rintro rfl elem
    rw [RebuildWalks.Rebuilding.run_rebuild]
    exact RebuildWalks.Rebuilding.rebuild_unique _ (mapped_eq project adapt) elem

end Uniqueness

/-! ### What a lifted tree keeps -/

section Shapes

def silent {ε : Type} (_ : α → ε → Action α) : Unit → ε → Action Unit := fun _ _ => Action.none

mutual

/-- A tree without its callbacks: its shape, the order of its children, its keys, labels and attributes. -/
def plain : Elem α → Elem Unit
  | .component ⟨key, _, _, remember, transparent⟩ => .component
      { key, transparent
        render := fun _ => .error .diverges
        «exists» := fun _ => .error .diverges
        remember := remember.map fun _ _ => .error .diverges }
  | .actionButton button => .actionButton (liftButton silent button)
  | .checkbox checkbox => .checkbox (liftCheckbox silent checkbox)
  | .textarea textarea => .textarea (liftTextarea silent textarea)
  | .image image => .image image
  | .canvas canvas => .canvas (liftCanvas silent canvas)
  | .column children props => .column (plainAll children) props
  | .keyedColumn base children full fullKeys keys operations props revision =>
    .keyedColumn base (plainAll children) (plainAll full) fullKeys keys operations props revision
  | .dialog children props => .dialog (plainAll children) (liftDialog silent props)
  | .popover children props => .popover (plainAll children) (liftPopover silent props)
  | .panel children props => .panel (plainAll children) props
  | .row children props => .row (plainAll children) props
  | .scroll axis content label style => .scroll axis (plain content) label style
  | .virtualList ⟨items, label, rowHeight, rowGap, style, none⟩ =>
    .virtualList ⟨plainItems items, label, rowHeight, rowGap, style, none⟩
  | .virtualList ⟨items, label, rowHeight, rowGap, style,
      some ⟨count, _, rowKey, scrollTo, onRange⟩⟩ =>
    .virtualList ⟨plainItems items, label, rowHeight, rowGap, style,
      some ⟨count, fun _ => .error .diverges, rowKey, scrollTo, onRange.map silent⟩⟩
  | .textInput input => .textInput (liftTextInput silent input)
  | .split children props => .split (plainAll children) (liftDivider silent props)
  | .dropTarget children props => .dropTarget (plainAll children) (liftDropTarget silent props)
  | .styledText text => .styledText text
  | .chord chord => .chord chord
  | .text value => .text value

def plainAll : List (Elem α) → List (Elem Unit)
  | [] => []
  | elem :: rest => plain elem :: plainAll rest

def plainItems : List (VirtualListItem (Elem α)) → List (VirtualListItem (Elem Unit))
  | [] => []
  | ⟨content, key⟩ :: rest => ⟨plain content, key⟩ :: plainItems rest

end

mutual

/-- No keyed column is in the tree, as far as it is built. -/
def keyless : Elem α → Bool
  | .keyedColumn .. => false
  | .row children _ | .column children _ | .dialog children _ | .popover children _ | .split children _
  | .dropTarget children _ | .panel children _ => keylessAll children
  | .scroll _ content _ _ => keyless content
  | .virtualList ⟨items, _, _, _, _, _⟩ => keylessItems items
  | _ => true

def keylessAll : List (Elem α) → Bool
  | [] => true
  | elem :: rest => keyless elem && keylessAll rest

def keylessItems : List (VirtualListItem (Elem α)) → Bool
  | [] => true
  | ⟨content, _⟩ :: rest => keyless content && keylessItems rest

end

variable (project : β → Option γ) (adapt : Action γ → β → Actions.Work (Action β))

theorem option_silent {ε : Type} (lift : (γ → ε → Action γ) → β → ε → Action β)
    (handler : Option (γ → ε → Action γ)) : (handler.map lift).map silent = handler.map silent := by
  cases handler <;> rfl

theorem popover_plain (props : PopoverNode γ) :
    liftPopover silent (liftPopover (adaptEvent project adapt) props) = liftPopover silent props := by
  simp only [liftPopover, option_silent, List.map_map]
  rfl

theorem button_plain (button : ButtonNode γ) :
    liftButton silent (liftButton (adaptEvent project adapt) button) = liftButton silent button := by
  simp only [liftButton, option_silent]
  rfl

theorem divider_plain (props : SplitNode γ) :
    liftDivider silent (liftDivider (adaptEvent project adapt) props) = liftDivider silent props := by
  simp only [liftDivider, List.map_map]
  rfl

theorem canvas_plain (canvas : CanvasNode γ) :
    liftCanvas silent (liftCanvas (adaptEvent project adapt) canvas) = liftCanvas silent canvas := by
  simp only [liftCanvas, option_silent]
  rfl

theorem dialog_plain (props : DialogNode γ) :
    liftDialog silent (liftDialog (adaptEvent project adapt) props) = liftDialog silent props := rfl

theorem drop_plain (props : DropTargetNode γ) :
    liftDropTarget silent (liftDropTarget (adaptEvent project adapt) props) = liftDropTarget silent props := rfl

theorem checkbox_plain (checkbox : CheckboxNode γ) :
    liftCheckbox silent (liftCheckbox (adaptEvent project adapt) checkbox) = liftCheckbox silent checkbox := rfl

theorem textarea_plain (textarea : TextareaNode γ) :
    liftTextarea silent (liftTextarea (adaptEvent project adapt) textarea) = liftTextarea silent textarea := rfl

theorem input_plain (input : TextInputNode γ) :
    liftTextInput silent (liftTextInput (adaptEvent project adapt) input) = liftTextInput silent input := rfl

mutual

theorem mapped_plain : (elem : Elem γ) → keyless elem = true →
    ∃ t, mapped project adapt elem = .ok t ∧ plain t = plain elem
  | .component ⟨key, render, mounted, remember, transparent⟩ => by
    intro _
    rw [mapped, plain]
    refine ⟨_, rfl, ?_⟩
    rw [plain, Option.map_map]
    rfl
  | .keyedColumn .. => by
    intro h
    rw [keyless] at h
    cases h
  | .row children _ | .column children _ | .panel children _ | .dialog children _
  | .dropTarget children _ | .popover children _ | .split children _ => by
    intro h
    rw [keyless] at h
    obtain ⟨ts, hts, hplain⟩ := mapped_plain_all children h
    rw [mapped, hts, plain]
    refine ⟨_, rfl, ?_⟩
    simp only [plain, hplain, popover_plain, divider_plain, dialog_plain, drop_plain]
  | .scroll axis content label style => by
    intro h
    rw [keyless] at h
    obtain ⟨t, ht, hplain⟩ := mapped_plain content h
    rw [mapped, ht, plain]
    exact ⟨.scroll axis t label style, rfl, by rw [plain, hplain]⟩
  | .virtualList ⟨items, label, rowHeight, rowGap, style, none⟩ => by
    intro h
    rw [keyless] at h
    obtain ⟨ts, hts, hplain⟩ := mapped_plain_items items h
    rw [mapped, hts, plain]
    exact ⟨.virtualList ⟨ts, label, rowHeight, rowGap, style, none⟩, rfl, by rw [plain, hplain]⟩
  | .virtualList ⟨items, label, rowHeight, rowGap, style,
      some ⟨count, renderRow, rowKey, scrollTo, onRange⟩⟩ => by
    intro h
    rw [keyless] at h
    obtain ⟨ts, hts, hplain⟩ := mapped_plain_items items h
    rw [mapped, hts, plain]
    refine ⟨_, rfl, ?_⟩
    rw [plain, hplain, option_silent]
  | .actionButton _ | .canvas _ | .checkbox _ | .textarea _ | .image _ | .textInput _
  | .styledText _ | .chord _ | .text _ => by
    intro _
    rw [mapped, plain]
    refine ⟨_, rfl, ?_⟩
    simp only [plain, button_plain, canvas_plain, checkbox_plain, textarea_plain, input_plain]

theorem mapped_plain_all : (children : List (Elem γ)) → keylessAll children = true →
    ∃ ts, mappedAll project adapt children = .ok ts ∧ plainAll ts = plainAll children
  | [], _ => ⟨[], rfl, rfl⟩
  | elem :: rest, h => by
    rw [keylessAll, Bool.and_eq_true] at h
    obtain ⟨t, ht, hplain⟩ := mapped_plain elem h.1
    obtain ⟨ts, hts, hrest⟩ := mapped_plain_all rest h.2
    exact ⟨t :: ts, by rw [mappedAll, ht, hts]; rfl, by rw [plainAll, hplain, hrest, plainAll]⟩

theorem mapped_plain_items : (items : List (VirtualListItem (Elem γ))) → keylessItems items = true →
    ∃ ts, mappedItems project adapt items = .ok ts ∧ plainItems ts = plainItems items
  | [], _ => ⟨[], rfl, rfl⟩
  | ⟨content, key⟩ :: rest, h => by
    rw [keylessItems, Bool.and_eq_true] at h
    obtain ⟨t, ht, hplain⟩ := mapped_plain content h.1
    obtain ⟨ts, hts, hrest⟩ := mapped_plain_items rest h.2
    exact ⟨⟨t, key⟩ :: ts, by rw [mappedItems, ht, hts]; rfl, by rw [plainItems, hplain, hrest, plainItems]⟩

end

mutual

theorem mapped_refuses : (elem : Elem γ) → keyless elem = false →
    mapped project adapt elem = .error (.panic keyedRefusal)
  | .keyedColumn .. => fun _ => rfl
  | .row children _ => by
    intro h
    rw [keyless] at h
    rw [mapped, refuses_all children h]
    rfl
  | .column children _ => by
    intro h
    rw [keyless] at h
    rw [mapped, refuses_all children h]
    rfl
  | .panel children _ => by
    intro h
    rw [keyless] at h
    rw [mapped, refuses_all children h]
    rfl
  | .dialog children _ => by
    intro h
    rw [keyless] at h
    rw [mapped, refuses_all children h]
    rfl
  | .dropTarget children _ => by
    intro h
    rw [keyless] at h
    rw [mapped, refuses_all children h]
    rfl
  | .popover children _ => by
    intro h
    rw [keyless] at h
    rw [mapped, refuses_all children h]
    rfl
  | .split children _ => by
    intro h
    rw [keyless] at h
    rw [mapped, refuses_all children h]
    rfl
  | .scroll _ content _ _ => by
    intro h
    rw [keyless] at h
    rw [mapped, mapped_refuses content h]
    rfl
  | .virtualList ⟨items, _, _, _, _, none⟩ => by
    intro h
    rw [keyless] at h
    rw [mapped, refuses_items items h]
    rfl
  | .virtualList ⟨items, _, _, _, _, some ⟨_, _, _, _, _⟩⟩ => by
    intro h
    rw [keyless] at h
    rw [mapped, refuses_items items h]
    rfl
  | .component _ | .actionButton _ | .checkbox _ | .textarea _ | .image _ | .canvas _
  | .textInput _ | .styledText _ | .chord _ | .text _ => by
    intro h
    cases h

theorem refuses_all : (children : List (Elem γ)) → keylessAll children = false →
    mappedAll project adapt children = .error (.panic keyedRefusal)
  | [], h => by cases h
  | elem :: rest, h => by
    rw [mappedAll]
    cases helem : keyless elem with
    | false =>
      rw [mapped_refuses elem helem]
      rfl
    | true =>
      obtain ⟨t, ht, -⟩ := mapped_plain project adapt elem helem
      rw [keylessAll, helem, Bool.true_and] at h
      rw [ht, refuses_all rest h]
      rfl

theorem refuses_items : (items : List (VirtualListItem (Elem γ))) → keylessItems items = false →
    mappedItems project adapt items = .error (.panic keyedRefusal)
  | [], h => by cases h
  | ⟨content, _⟩ :: rest, h => by
    rw [mappedItems]
    cases hcontent : keyless content with
    | false =>
      rw [mapped_refuses content hcontent]
      rfl
    | true =>
      obtain ⟨t, ht, -⟩ := mapped_plain project adapt content hcontent
      rw [keylessItems, hcontent, Bool.true_and] at h
      rw [ht, refuses_items rest h]
      rfl

end

/-- Whatever the projection and the adapter: `lift_with` is the recursion on trees. A tree without a keyed
column is lifted to one of the same shape, order, keys, labels and attributes, and any other refuses. -/
theorem lift_with_maps :
    (∀ lift : Elem γ → Checked (Elem β), IsLiftWith project adapt lift ↔ lift = mapped project adapt) ∧
    ∀ elem : Elem γ,
      (keyless elem = true → ∃ t, mapped project adapt elem = .ok t ∧ plain t = plain elem) ∧
      (keyless elem = false → mapped project adapt elem = .error (.panic keyedRefusal)) :=
  ⟨fun _ => is_lift_iff, fun elem => ⟨mapped_plain project adapt elem, mapped_refuses project adapt elem⟩⟩

/-- The keyed column that `keyed_col` renders is lifted to nothing. -/
theorem keyed_not_lifted :
    ¬∀ lift : Elem Unit → Checked (Elem Unit), IsLiftWith some (fun action _ => pure action) lift →
      ∀ elem, ∃ t, lift elem = .ok t := by
  intro claim
  obtain ⟨t, ht⟩ := claim _ (is_lift_iff.mpr rfl) (.keyedColumn 0 [] [] [] [] [] ⟨"", {}⟩ 0)
  cases ht

end Shapes

end ElementLifts
