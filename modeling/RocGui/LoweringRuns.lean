import RocGui.Lowerings

/-! The work stack lowers every element as the recursion does, however the walk is cut. -/
namespace LoweringRuns

open Boundaries Components ElementNodes Elements FiniteMaps Hosts Lowerings MethodAnswers Methods
open SlicedWalks Styles

variable {α H : Type} {host : Host H} {state : α}

theorem performs_frame {item : LowerWork α} {m : Lowering α H → HostM H (Lowering α H)}
    (h : ∀ work l, lowerFrame host state item work l = m l >>= fun l => pure (.go work l)) :
    Performs (lowerFrame host state) (.node item) m := performs_step h

theorem performs_append (builder : ℕ) :
    Performs (lowerFrame host state) (.node (.append builder)) (appendChild host builder) :=
  performs_frame fun _ _ => rfl

/-! ### Components -/

theorem fresh_render {id parent : ℕ} {path : List ℕ} {bound : BoundComponent α (Elem α)}
    {owner : BoundaryInfo α} (h : Answers (freshBoundary id parent path bound : HostM H _) owner) :
    owner.render = bound.render := by
  obtain ⟨items, -, h⟩ := answers_bind h
  rw [← answers_pure h]

theorem resolved_render {bound : BoundComponent α (Elem α)} {parent id : ℕ} {info : BuildingOwner}
    {stored : FiniteMap ℕ (BoundaryInfo α)} {owner : BoundaryInfo α}
    (h : Answers (resolveOwner host bound parent info stored id) owner) :
    owner.render = bound.render := by
  rw [resolveOwner] at h
  split at h
  · rw [← answers_pure h]
    rfl
  · obtain ⟨_, -, h⟩ := answers_bind h
    exact fresh_render h

/-- A component that is entered renders as the element just emitted says. -/
theorem prepared_owner {bound : BoundComponent α (Elem α)} {parent : ℕ} {built : Building α H}
    {owner : BoundaryInfo α} {above : BuildingOwner}
    (h : Answers (prepareComponent host bound state parent built) (.descend owner above)) :
    owner.render = bound.render := by
  obtain ⟨_, -, h⟩ := answers_bind h
  obtain ⟨_, -, h⟩ := answers_bind h
  obtain ⟨resolved, -, h⟩ := answers_bind h
  obtain ⟨_, -, h⟩ := answers_bind h
  obtain ⟨_, -, h⟩ := answers_bind h
  obtain ⟨found, hfound, h⟩ := answers_bind h
  obtain ⟨_, -, h⟩ := answers_bind h
  obtain ⟨_, -, h⟩ := answers_bind h
  obtain ⟨_, -, h⟩ := answers_bind h
  obtain ⟨same, -, h⟩ := answers_bind h
  cases same with
  | true =>
    obtain ⟨_, -, h⟩ := answers_bind h
    obtain ⟨_, -, h⟩ := answers_bind h
    cases answers_pure h
  | false =>
    cases answers_pure h
    exact resolved_render hfound

/-- What a component's frame finds: a retained subtree, or an element to lower next. -/
inductive Entered (α H : Type) where
  | retained (built : Building α H)
  | rendered (owner : BoundaryInfo α) (parent : BuildingOwner) (prepared : Prepared α H)

def enter (host : Host H) (state : α) (bound : BoundComponent α (Elem α)) (l : Lowering α H) :
    HostM H (Entered α H) := do
  match ← prepareComponent host bound state l.active l.built with
  | .retained built => pure (.retained built)
  | .descend owner parent => do
    let prepared ← enterComponent host state owner l
    pure (.rendered owner parent prepared)

def loweredEntered (host : Host H) (state : α) (run : Checked (Elem α)) :
    Entered α H → Lowering α H → HostM H (Lowering α H)
  | .retained _, l => pure l
  | .rendered owner parent prepared, l =>
    loweredRun host state run 0 l >>= closeBoundary host state owner prepared.cleared parent

def Entered.context : Entered α H → Lowering α H → Lowering α H
  | .retained built, l => { l with built }
  | .rendered owner _ prepared, _ => Prepared.lowering owner prepared

def Entered.push : Entered α H → Work α → Work α
  | .retained _, work => work
  | .rendered owner parent prepared, work =>
    (work.push (.closeBoundary owner prepared.cleared parent)).push (.visit prepared.rendered 0)

theorem entered_rendered {bound : BoundComponent α (Elem α)} {l : Lowering α H}
    {owner : BoundaryInfo α} {parent : BuildingOwner} {prepared : Prepared α H}
    (h : Answers (enter host state bound l) (.rendered owner parent prepared)) :
    bound.render state = .ok prepared.rendered := by
  obtain ⟨decision, hdecision, h⟩ := answers_bind h
  cases decision with
  | retained built => cases answers_pure h
  | descend owner parent =>
    obtain ⟨prepared, hprepared, h⟩ := answers_bind h
    cases answers_pure h
    obtain ⟨_, -, h⟩ := answers_bind hprepared
    obtain ⟨_, -, h⟩ := answers_bind h
    obtain ⟨_, -, h⟩ := answers_bind h
    obtain ⟨_, -, h⟩ := answers_bind h
    obtain ⟨_, -, h⟩ := answers_bind h
    obtain ⟨rendered, hrendered, h⟩ := answers_bind h
    obtain ⟨_, -, h⟩ := answers_bind h
    obtain ⟨_, -, h⟩ := answers_bind h
    rw [← answers_pure h, ← prepared_owner hdecision]
    exact answers_ofExcept hrendered

/-! ### Elements -/

section Containers

variable {elem : Elem α} {position : ℕ} {opening : HostM H ℕ}
  {context : Lowering α H → Lowering α H} {frame : ℕ → LowerWork α}
  {close : ℕ → Lowering α H → HostM H (Lowering α H)}

/-- A container opens, queues its children above its closing frame, and closes. -/
theorem performs_container (children : List (Elem α))
    (visits : ∀ work l, visitElem host state elem position work l = opening >>= fun builder =>
      pure (.go (queueChildren (work.push (frame builder)) children builder) (context l)))
    (closes : ∀ builder work l, lowerFrame host state (frame builder) work l =
      close builder l >>= fun l => pure (.go work l))
    (performs : ∀ builder, Performs (lowerFrame host state)
      (fun work => queueChildren work children builder)
      (loweredChildren host state children 0 builder)) :
    Performs (lowerFrame host state) (.node (.visit elem position)) (fun l => do
      let builder ← opening
      let l ← loweredChildren host state children 0 builder (context l)
      close builder l) := by
  have steps (work : Work α) (l : Lowering α H) :
      lowerFrame host state (.visit elem position) work l = _ := visits work l
  have inner (builder : ℕ) : Performs (lowerFrame host state)
      (fun work => queueChildren (work.push (frame builder)) children builder)
      (fun l => loweredChildren host state children 0 builder l >>= close builder) :=
    performs_bind (performs builder) (performs_frame (closes builder))
  exact performs_node steps fun builder _ _ => inner builder

end Containers

theorem performs_leaf {elem : Elem α} {position : ℕ}
    (visits : ∀ work l, visitElem host state elem position work l =
      lowerLeaf host elem l.active l.built >>= fun built => pure (.go work { l with built })) :
    Performs (lowerFrame host state) (.node (.visit elem position)) (fun l => do
      let built ← lowerLeaf host elem l.active l.built
      pure { l with built }) := by
  apply performs_frame
  intro work l
  rw [bind_assoc]
  exact visits work l

theorem performs_item {content : Elem α} {lower : Lowering α H → HostM H (Lowering α H)}
    (builder key : ℕ)
    (visits : Performs (lowerFrame host state) (.node (.visit content 0)) lower) :
    Performs (lowerFrame host state) (queueItem builder key content) (fun l => do
      openItem host key
      let l ← lower l
      let l ← closeItem host key l
      appendChild host builder l) := by
  have opens : Performs (lowerFrame host state) (.node (.openItem key)) fun l =>
      openItem host key >>= fun _ => pure l := performs_frame fun _ _ => rfl
  have closes : Performs (lowerFrame host state) (.node (.closeItem key)) (closeItem host key) :=
    performs_frame fun _ _ => rfl
  have row := performs_bind opens
    (performs_bind visits (performs_bind closes (performs_append builder)))
  refine performs_congr (fun l => ?_) row
  simp only [bind_assoc, pure_bind]

theorem performs_rows {renderRow : ℕ → Checked (Elem α)} (key : ℕ → ℕ) (builder : ℕ)
    (visits : ∀ index content, renderRow index = .ok content →
      Performs (lowerFrame host state) (.node (.visit content 0))
        (loweredRun host state (renderRow index) 0)) (indices : List ℕ) :
    ∀ {rows}, renderRows renderRow key indices = .ok rows → Performs (lowerFrame host state)
      (fun work => rows.foldr (fun row => queueItem builder row.key row.content) work)
      (fun l => indices.foldlM (fun l index => do
        openItem host (key index)
        let l ← loweredRun host state (renderRow index) 0 l
        let l ← closeItem host (key index) l
        appendChild host builder l) l) := by
  induction indices with
  | nil =>
    intro rows h
    cases h
    exact performs_nothing
  | cons index indices ih =>
    intro rows h
    rw [renderRows, List.foldrM_cons] at h
    obtain ⟨rest, hrest, h⟩ := except_bind_ok.mp h
    obtain ⟨content, hcontent, h⟩ := except_bind_ok.mp h
    cases h
    refine performs_congr (fun l => ?_)
      (performs_bind (performs_item builder (key index) (visits index content hcontent)) (ih hrest))
    rw [List.foldlM_cons]

def loweredProvided (host : Host H) (state : α) (provider : RowProvider α (Elem α))
    (indices : List ℕ) (builder : ℕ) (l : Lowering α H) : HostM H (Lowering α H) :=
  indices.foldlM (fun l index => do
    openItem host (provider.rowKey index)
    let l ← loweredRun host state (provider.renderRow index) 0 l
    let l ← closeItem host (provider.rowKey index) l
    appendChild host builder l) l

theorem loweredRows_eq (provider : RowProvider α (Elem α)) (indices : List ℕ) (builder : ℕ)
    (l : Lowering α H) : loweredRows host state provider indices builder l = (do
      let _ ← checked (renderRows provider.renderRow provider.rowKey indices)
      loweredProvided host state provider indices builder l) := by
  cases provider
  rw [loweredRows]
  rfl

theorem performs_boundary (owner cleared : BoundaryInfo α) (parent : BuildingOwner) :
    Performs (lowerFrame host state) (.node (.closeBoundary owner cleared parent))
      (closeBoundary host state owner cleared parent) := by
  refine performs_congr (fun l => (bind_pure _).symm) (performs_suspended (fun _ _ => rfl)
    fun l _ _ => performs_nothing)

mutual

theorem performs_visit : ∀ (elem : Elem α) (position : ℕ),
    Performs (lowerFrame host state) (.node (.visit elem position))
      (lowered host state elem position)
  | .row children _, _ | .column children _, _ | .keyedColumn _ _ children _ _ _ _ _, _
  | .dialog children _, _ | .popover children _, _ | .split children _, _
  | .dropTarget children _, _ | .panel children _, _ =>
    performs_congr (fun _ => by simp only [lowered]) (performs_container children
      (fun _ _ => rfl) (fun _ _ _ => rfl) fun builder => performs_children children 0 builder)
  | .scroll axis content label style, position => by
    have closes : Performs (lowerFrame host state) (.node (.closeScroll axis label style))
        (closeScroll host axis label style) := performs_frame fun _ _ => rfl
    refine performs_congr (fun l => ?_) (performs_node (fun _ _ => rfl) fun _ _ _ =>
      performs_bind (performs_visit content 0) closes)
    simp only [lowered]
  | .virtualList list, position =>
    performs_congr (fun _ => by simp only [lowered]) (performs_list list position)
  | .component bound, position =>
    performs_congr (fun _ => by simp only [lowered]) (performs_component bound position)
  | .text _, _ | .styledText _, _ | .chord _, _ | .actionButton _, _ | .checkbox _, _
  | .textarea _, _ | .image _, _ | .canvas _, _ | .textInput _, _ =>
    performs_congr (fun _ => by simp only [lowered]) (performs_leaf fun _ _ => rfl)

theorem performs_children : ∀ (children : List (Elem α)) (position builder : ℕ),
    Performs (lowerFrame host state)
      (fun work => (children.zipIdx position).foldr (fun child work =>
        (work.push (.append builder)).push (.visit child.1 child.2)) work)
      (loweredChildren host state children position builder)
  | [], position, builder =>
    performs_congr (fun _ => by rw [loweredChildren]) performs_nothing
  | child :: children, position, builder =>
    performs_congr (fun _ => by rw [loweredChildren]) (performs_bind (performs_visit child position)
      (performs_bind (performs_append builder) (performs_children children (position + 1) builder)))

theorem performs_list : ∀ (list : VirtualListNode α (Elem α)) (position : ℕ),
    Performs (lowerFrame host state) (.node (.visit (.virtualList list) position))
      (loweredList host state list position)
  | ⟨items, label, rowHeight, rowGap, style, none⟩, position => by
    let shell : VirtualListNode α (Elem α) := ⟨[], label, rowHeight, rowGap, style, none⟩
    have opens (work : Work α) (l : Lowering α H) : lowerFrame host state
        (.visit (.virtualList ⟨items, label, rowHeight, rowGap, style, none⟩) position) work l =
          openScope host 6 label position >>= fun builder => pure (.go (items.foldr (fun row =>
            queueItem builder row.key row.content) (work.push (.closeList builder shell 0))) l) := rfl
    have closes (builder : ℕ) : Performs (lowerFrame host state)
        (.node (.closeList builder shell 0)) (closeList host builder shell 0) :=
      performs_frame fun _ _ => rfl
    have inner (builder : ℕ) := performs_bind (performs_items items builder) (closes builder)
    refine performs_congr (fun l => ?_) (performs_node opens fun builder _ _ => inner builder)
    rw [loweredList]
  | ⟨items, label, rowHeight, rowGap, style, some provider⟩, position => by
    let shell : VirtualListNode α (Elem α) := ⟨[], label, rowHeight, rowGap, style, some provider⟩
    let indices (window : ℕ × ℕ) := List.range' window.1 (window.2 - window.1)
    let opened (l : Lowering α H) :
        HostM H (ℕ × (ℕ × ℕ) × List (VirtualListItem (Elem α))) := do
      let builder ← openScope host 6 label position
      let window ← rowsWindow host provider rowHeight l.active
      let rows ← checked (renderRows provider.renderRow provider.rowKey (indices window))
      pure (builder, window, rows)
    have opens (work : Work α) (l : Lowering α H) : lowerFrame host state
        (.visit (.virtualList ⟨items, label, rowHeight, rowGap, style, some provider⟩) position)
          work l = opened l >>= fun x => pure (.go (x.2.2.foldr (fun row =>
            queueItem x.1 row.key row.content) (work.push (.closeList x.1 shell x.2.1.1))) l) := by
      simp only [opened, indices, bind_assoc, pure_bind]
      rfl
    have closes (builder first : ℕ) : Performs (lowerFrame host state)
        (.node (.closeList builder shell first)) (closeList host builder shell first) :=
      performs_frame fun _ _ => rfl
    have rendered {l : Lowering α H} {x : ℕ × (ℕ × ℕ) × List (VirtualListItem (Elem α))}
        (h : Answers (opened l) x) :
        renderRows provider.renderRow provider.rowKey (indices x.2.1) = .ok x.2.2 := by
      obtain ⟨builder, -, h⟩ := answers_bind h
      obtain ⟨window, -, h⟩ := answers_bind h
      obtain ⟨rows, hrows, h⟩ := answers_bind h
      rw [← answers_pure h]
      exact answers_ofExcept hrows
    refine performs_congr (fun l => ?_) (performs_node opens fun x l h => performs_bind
      (performs_provided provider (indices x.2.1) x.1 (rendered h)) (closes x.1 x.2.1.1))
    simp only [loweredList, loweredRows_eq, opened, bind_assoc, pure_bind]
    rfl

theorem performs_provided : ∀ (provider : RowProvider α (Elem α)) (indices : List ℕ)
    (builder : ℕ) {rows : List (VirtualListItem (Elem α))},
    renderRows provider.renderRow provider.rowKey indices = .ok rows →
    Performs (lowerFrame host state)
      (fun work => rows.foldr (fun row => queueItem builder row.key row.content) work)
      (loweredProvided host state provider indices builder)
  | ⟨_, renderRow, rowKey, _, _⟩, indices, builder, _ =>
    performs_rows rowKey builder (fun index _ h => performs_run (renderRow index) h) indices

theorem performs_run : ∀ (run : Except (Failure Empty) (Elem α)) {content : Elem α},
    run = .ok content → Performs (lowerFrame host state) (.node (.visit content 0))
      (loweredRun host state run 0)
  | .error _, _, h => by cases h
  | .ok elem, content, h => by
    cases h
    exact performs_congr (fun _ => by rw [loweredRun]) (performs_visit elem 0)

theorem performs_items : ∀ (items : List (VirtualListItem (Elem α))) (builder : ℕ),
    Performs (lowerFrame host state)
      (fun work => items.foldr (fun row => queueItem builder row.key row.content) work)
      (loweredItems host state items builder)
  | [], builder => performs_congr (fun _ => by rw [loweredItems]) performs_nothing
  | ⟨content, key⟩ :: items, builder =>
    performs_congr (fun _ => by simp only [loweredItems, loweredItem]) (performs_bind
      (performs_item builder key (performs_visit content 0)) (performs_items items builder))

theorem performs_component : ∀ (bound : BoundComponent α (Elem α)) (position : ℕ),
    Performs (lowerFrame host state) (.node (.visit (.component bound) position))
      (loweredComponent host state bound)
  | ⟨key, render, present, remember, transparent⟩, position => by
    let bound : BoundComponent α (Elem α) := ⟨key, render, present, remember, transparent⟩
    have suspends (work : Work α) (l : Lowering α H) :
        lowerFrame host state (.visit (.component bound) position) work l =
          pure (.suspend (enter host state bound l >>= fun x =>
            pure (x.push work, x.context l))) := by
      rw [enter, bind_assoc]
      refine congrArg (fun m => pure (Next.suspend m)) (bind_congr fun decision => ?_)
      cases decision with
      | retained built => rfl
      | descend owner parent => rw [bind_assoc]; rfl
    have inner (x : Entered α H) (l : Lowering α H) (h : Answers (enter host state bound l) x) :
        Performs (lowerFrame host state) x.push (loweredEntered host state (render state) x) := by
      cases x with
      | retained built => exact performs_nothing
      | rendered owner parent prepared =>
        have visit := performs_run (render state) (entered_rendered h)
        have closed := performs_bind visit (performs_boundary owner prepared.cleared parent)
        exact closed
    refine performs_congr (fun l => ?_) (performs_suspended suspends inner)
    rw [loweredComponent, enter, bind_assoc]
    refine bind_congr fun decision => ?_
    cases decision with
    | retained built => rfl
    | descend owner parent => rw [bind_assoc]; rfl

end

/-- However lowering is cut into slices, it calls the host as the recursion does, and hands on
the same root, routes and boundaries. -/
theorem lower_lowered (host : Host H) (state : α) (elem : Elem α) (position : ℕ)
    (l : Lowering α H) (budget : ℕ → ℕ+) (h : H) : ∃ n, ∀ turns ≥ n,
      (lower host state budget turns elem position l).run h =
        handed ((lowered host state elem position (l.rooted 0)).run h) :=
  drive_performs (performs_visit elem position) budget (l.rooted 0) h

end LoweringRuns
