import RocGui.FocusHandles
import RocGui.IdentityRuns

/-! Where focus goes after a patch: the policy of the window, and what the semantic runner keeps. -/
namespace FocusPolicies

open FiniteMaps Methods KeyedOrder GraphState GraphPatches GraphForests GraphRuns FocusSearches
open FocusLandings RuntimeIdentities IdentityRuns NodeForms PointerTrees Transitions NativeViews FocusHandles

variable {K : Type} [DecidableEq K]

section Runner

inductive Trigger where
  | click (id : ℕ)
  | pressKey (id : ℕ)
  | key
  | submit (id : ℕ)
  | textChange | canvas | hover | drop | task | timer
  deriving DecidableEq, Repr

structure RunnerFocus where
  focused : Option ℕ
  dialogReturnFocus : Option (ℕ × String)
  deriving DecidableEq, Repr

def roleAndName (g : MountedGraph K) (id : ℕ) : Option (ℕ × String) :=
  (g.node id).bind fun node => focusIdentity node.kind

variable (g v : MountedGraph K)

def findAgain : Option (ℕ × String) → Reading K (Option ℕ)
  | none => .ok none
  | some identity => findFocusIdentity v identity

def returnFocus (r : RunnerFocus) : Reading K RunnerFocus := do
  return ⟨← findAgain v r.dialogReturnFocus, none⟩

/-- After a click, a key press and a shortcut. -/
def followDialog (opener : Option (ℕ × String)) (r : RunnerFocus) : Reading K RunnerFocus :=
  match g.dialog, v.dialog with
  | none, some dialog => do return ⟨← firstFocusableIn v dialog, opener⟩
  | some _, none => returnFocus v r
  | _, _ => .ok r

def followTrigger (trigger : Trigger) (r : RunnerFocus) : Reading K RunnerFocus :=
  match trigger with
  | .click id | .pressKey id => followDialog g v (roleAndName g id) r
  | .key => followDialog g v (r.focused.bind (roleAndName g)) r
  | .submit _ =>
    match g.dialog, v.dialog with
    | some _, none => returnFocus v r
    | _, _ => .ok r
  | .textChange | .canvas | .hover | .drop | .task | .timer => .ok r

def settleFocus (before : Option (ℕ × String)) (focused : Option ℕ) : Reading K (Option ℕ) :=
  match focused with
  | none => .ok none
  | some id => if (v.nodes.get id).isNone then findAgain v before else .ok (some id)

/-- A step of the runner whose command applied one patch. -/
def runnerStep (trigger : Trigger) (r : RunnerFocus) : Reading K RunnerFocus := do
  let focusBefore := r.focused.bind (roleAndName g)
  let r ← followTrigger g v trigger r
  let focused ← settleFocus v focusBefore r.focused
  match ← answer (takeFocusRequest.run v) with
  | some target => return { r with focused := some target }
  | none => return { r with focused }

end Runner

section Window

structure WindowFocus where
  activeDialog : Option ℕ
  dialogReturnFocus : Option ElementIdentity
  focusRootAfterRender : Bool
  lastTriggerFocus : Option ElementIdentity
  focusedIdentity : Option (ℕ × ElementIdentity)
  focusedPosition : Option ℕ
  focusAfterRender : Option ℕ

variable (v : MountedGraph K)

/-- `find_native_identity`; the map is iterated in any order. -/
def findNativeIdentity (hashOrder : Enumeration ℕ ElementIdentity)
    (identities : FiniteMap ℕ ElementIdentity) (identity : ElementIdentity) : Option ℕ :=
  (hashOrder.entries identities).findSome? fun (id, candidate) =>
    if candidate = identity ∧ (v.nodes.get id).isSome then some id else none

/-- Which control a dialog that is opened now will return focus to. -/
def noteTrigger (rt : Runtime K) (trigger : Trigger) (w : WindowFocus) : WindowFocus :=
  match trigger with
  | .click id | .pressKey id =>
    match (rt.graph.node id).map (·.kind) with
    | some (NodeKind.dialog _) => w
    | _ => { w with lastTriggerFocus := rt.identities.get id }
  | .key => { w with
      lastTriggerFocus := w.focusedIdentity.bind fun focused => rt.identities.get focused.1 }
  | _ => w

def placeTaken (w : WindowFocus) : Reading K (Option ℕ) :=
  match w.focusedPosition with
  | none => .ok none
  | some wasAt => focusDestination v wasAt

/-- The focus policy, the same for each sort of patch. -/
def followPatch (find : ElementIdentity → Option ℕ) (w : WindowFocus) : Reading K WindowFocus :=
  match w.activeDialog, v.dialog with
  | none, some dialog => do
    let target ← firstFocusableIn v dialog
    return { w with
      dialogReturnFocus := w.lastTriggerFocus
      lastTriggerFocus := none
      focusAfterRender := target }
  | some _, none =>
    let target := w.dialogReturnFocus.bind find
    .ok { w with
      dialogReturnFocus := none
      focusAfterRender := target
      focusRootAfterRender := target.isNone }
  | _, _ =>
    if w.focusRootAfterRender then .ok w
    else match w.focusedIdentity with
      | none => .ok w
      | some (id, identity) =>
        if (v.nodes.get id).isSome then .ok w
        else match find identity with
          | some target => .ok { w with focusAfterRender := some target }
          | none => do
            let target ← placeTaken v w
            return { w with focusAfterRender := target }

/-- `apply_to_gpui`, as far as it is about focus. -/
def windowStep (a : GraphApply K) (find : ElementIdentity → Option ℕ) (w : WindowFocus) :
    Reading K WindowFocus :=
  if a.facts.kind = "no_change" then .ok w
  else do
    let w ← followPatch v find w
    match ← answer (takeFocusRequest.run v) with
    | some target => return { w with focusAfterRender := some target, activeDialog := v.dialog }
    | none => return { w with activeDialog := v.dialog }

/-- The handle that has focus once `render` has moved it: that of the control to focus, if that has
one when the frame begins, and else the one in use, if the root does not take focus. -/
def rendered (handles : FiniteMap ℕ ℕ) (held : Option ℕ) (w : WindowFocus) : Option ℕ :=
  (w.focusAfterRender.bind handles.get).or (if w.focusRootAfterRender then none else held)

end Window

section Turns

/-- One patch, and what the window and the runner hold before it: the same focused control, and
the same opener of the dialog that is open. The window has its views and the handle in use. With
the patch it offers the views of doomed nodes, draws those of `built` and drops the editors of
retired inputs; in the frame that follows it draws rows that come into view, and releases others. -/
structure Turn (K : Type) [DecidableEq K] where
  before : Runtime K
  after : Runtime K
  report : GraphApply K
  trigger : Trigger
  hashOrder : Enumeration ℕ ElementIdentity
  focused : Option (ℕ × ElementIdentity)
  position : Option ℕ
  opener : Option (ElementIdentity × (ℕ × String))
  lastTrigger : Option ElementIdentity
  views : Window K
  held : Option ℕ
  doomed : List ℕ
  built : List ℕ
  dropped : List ElementIdentity
  rows : List ℕ
  released : List ℕ

variable (t : Turn K)

def Turn.find (identity : ElementIdentity) : Option ℕ :=
  findNativeIdentity t.after.graph t.hashOrder t.after.identities identity

def Turn.runner : RunnerFocus := ⟨t.focused.map Prod.fst, t.opener.map Prod.snd⟩

/-- The window has drawn: nothing is left for the next frame to focus. -/
def Turn.window : WindowFocus where
  activeDialog := t.before.graph.dialog
  dialogReturnFocus := t.opener.map Prod.fst
  focusRootAfterRender := false
  lastTriggerFocus := t.lastTrigger
  focusedIdentity := t.focused
  focusedPosition := t.position
  focusAfterRender := none

def Turn.begun : Window K :=
  if t.report.facts.kind = "no_change" then t.views
  else ((t.views.materialize t.after.graph t.after.identities t.doomed t.built).retire
    t.report.removedIds).dropEditors t.dropped

def Turn.shown : Window K :=
  (t.rows.foldl (fun w id => w.enter t.after.graph t.after.identities id) t.begun).retire t.released

/-- `is_focused`, of the handle of a control that is drawn. -/
def Turn.focuses (handle : Option ℕ) (id : ℕ) : Prop :=
  handle.isSome ∧ t.shown.focusHandles.get id = handle

def runnerFocus : Reading K (Option ℕ) := do
  return (← runnerStep t.before.graph t.after.graph t.trigger t.runner).focused

def windowFocus : Reading K (Option ℕ) := do
  return rendered t.begun.focusHandles t.held
    (← windowStep t.after.graph t.report t.find (noteTrigger t.before t.trigger t.window))

/-- A patch that a reached graph accepts, with the control that holds focus, its place in the tab
order and the views of the window, of which only that control has the handle in use. Earlier
requests for focus were taken when they were made. What the patch stages is new to the window, and
an editor is dropped only if no staged input has its identity. -/
structure Turn.Valid : Prop where
  reached : ∃ g i, Reachable (accepting K) g ∧ t.before.graph = { g with interaction := i } ∧
    i.keyboard.requests = []
  step : ∃ d : Delivery K, (apply d.1 d.2).run t.before.graph = .ok t.report t.after.graph ∧
    applyToGpui t.after.graph t.report t.before.identities = .ok t.after.identities
  focused : ∀ f ∈ t.focused, Focusable t.before.graph f.1
  position : ∀ order, focusOrder t.before.graph = .ok order →
    t.position = t.focused.bind fun f => order.idxOf? f.1
  issued : Issued t.views ∧ ∀ h ∈ t.held, h < t.views.nextHandle
  held : ∀ id, (∃ f ∈ t.focused, f.1 = id) ↔ t.held.isSome ∧ t.views.focusHandles.get id = t.held
  drawn : ∀ id ∈ t.built ++ t.rows, (t.after.graph.node id).isSome ∧ t.views.focusHandles.get id = none
  nodup : (t.built ++ t.rows).Nodup
  kept : ∀ id ∈ t.built, id ∉ t.report.removedIds ∧
    (takesEditor t.after.graph id = true → Window.identityOf t.after.identities id ∉ t.dropped)
  quiet : t.report.facts.kind = "no_change" → t.built = [] ∧ t.rows = [] ∧ t.released = []

def First (p : ℕ → Prop) : List ℕ → Option ℕ → Prop
  | [], x => x = none
  | id :: rest, x => p id ∧ x = some id ∨ ¬p id ∧ First p rest x

def Below (v : MountedGraph K) (ancestor id : ℕ) : Prop :=
  v.isDescendantOf id ancestor = (.ok true : Reading K Bool)

def Called (v : MountedGraph K) (identity : ℕ × String) (id : ℕ) : Prop :=
  roleAndName v id = some identity

def atPlace (order : List ℕ) (wasAt : ℕ) : Option ℕ := order[min wasAt (order.length - 1)]?

def Turn.control (order : List ℕ) (identity : ElementIdentity) : Option ℕ :=
  (t.find identity).filter (· ∈ order)

/-- Where focus is to go: to what a region asks for; into a dialog that opens; to its opener when it
closes; and otherwise it stays with the control, whatever its id, or goes to the control that is
now at its place. -/
def Policy (order : List ℕ) (requested : Option ℕ) (x : Option ℕ) : Prop :=
  match requested, t.before.graph.dialog, t.after.graph.dialog with
  | some target, _, _ => x = some target
  | none, none, some dialog => First (Below t.after.graph dialog) order x
  | none, some _, none => x = (t.opener.map Prod.fst).bind (t.control order)
  | none, _, _ =>
    match t.focused with
    | none => x = none
    | some (id, identity) =>
      if (t.after.graph.nodes.get id).isSome then x = some id
      else x = (t.control order identity).or (t.position.bind (atPlace order))

/-- The runner and the window give focus to one control, as the policy says. -/
def FocusAgrees : Prop := ∃ order requested x handle, focusOrder t.after.graph = .ok order ∧
  answer (takeFocusRequest.run t.after.graph) = .ok requested ∧ runnerFocus t = .ok x ∧
  windowFocus t = .ok handle ∧ (∀ id, x = some id ↔ t.focuses handle id) ∧ Policy t order requested x

/-- What the runner keeps when it does not follow the dialogs: the control while it is mounted, then
the first one of its role and name. -/
def Kept (order : List ℕ) (x : Option ℕ) : Prop :=
  match t.focused with
  | none => x = none
  | some (id, _) =>
    if (t.after.graph.nodes.get id).isSome then x = some id
    else ∃ name, roleAndName t.before.graph id = some name ∧ First (Called t.after.graph name) order x

def Trigger.opens : Trigger → Bool
  | .click _ | .pressKey _ | .key => true
  | _ => false

def Trigger.closes : Trigger → Bool
  | .submit _ => true
  | trigger => trigger.opens

/-- Whether a dialog closes whose opener is gone: the root of the window takes focus then. -/
def Turn.toRoot : Bool :=
  t.before.graph.dialog.isSome && t.after.graph.dialog.isNone &&
    ((t.opener.map Prod.fst).bind t.find).isNone

/-- The handle of a control by its identity, when those of `ids` have been drawn anew. -/
def Turn.sourceIn (ids : List ℕ) (id : ℕ) : Option Source :=
  FocusHandles.sourceIn t.after.graph t.after.identities (t.views.offer t.doomed)
    (editorsLeft t.views.editors.get t.dropped)
    (fun id => if id ∈ t.report.removedIds then none else t.views.focusHandles.get id) ids id

/-- The handle of a control that is to have focus, if the patch draws it, and else the one in use. -/
def Turn.inUse (target : Option ℕ) : Option Source :=
  (target.bind (t.sourceIn t.built)).or (if t.toRoot then none else t.held.map .held)

/-- If `target` is to have focus, the controls in view that have its handle are just `x`. -/
def Turn.Lands (target x : Option ℕ) : Prop := ∀ id, x = some id ↔ id ∉ t.released ∧
  (t.inUse target).isSome ∧ t.sourceIn (t.built ++ t.rows) id = t.inUse target

/-- When role and name, the triggers after which the runner follows the dialogs, and the handles of
the controls say the same as the policy does. -/
def Recognised (order : List ℕ) (requested : Option ℕ) : Prop :=
  match requested, t.before.graph.dialog, t.after.graph.dialog with
  | some target, _, _ => t.Lands (some target) (some target)
  | none, none, some dialog => ∃ x, First (Below t.after.graph dialog) order x ∧ t.Lands x x ∧
    (t.trigger.opens = true ∨ Kept t order x)
  | none, some _, none =>
    t.Lands ((t.opener.map Prod.fst).bind t.find) ((t.opener.map Prod.fst).bind (t.control order)) ∧
    if t.trigger.closes then ∀ o ∈ t.opener, First (Called t.after.graph o.2) order (t.control order o.1)
    else Kept t order ((t.opener.map Prod.fst).bind (t.control order))
  | none, _, _ =>
    match t.focused with
    | none => t.Lands none none
    | some (id, identity) =>
      if (t.after.graph.nodes.get id).isSome then t.Lands none (some id)
      else t.Lands ((t.find identity).or (t.position.bind (atPlace order)))
          ((t.control order identity).or (t.position.bind (atPlace order))) ∧
        Kept t order ((t.control order identity).or (t.position.bind (atPlace order)))

end Turns

section Searches

variable {v : MountedGraph K} {p : ℕ → Prop} {order : List ℕ} {x y : Option ℕ}

theorem first_unique (hx : First p order x) (hy : First p order y) : x = y := by
  induction order with
  | nil => exact hx.trans hy.symm
  | cons id rest ih =>
    rcases hx with ⟨hp, rfl⟩ | ⟨hp, hx⟩
    · rcases hy with ⟨-, rfl⟩ | ⟨hn, -⟩
      · rfl
      · exact absurd hp hn
    · rcases hy with ⟨hn, -⟩ | ⟨-, hy⟩
      · exact absurd hn hp
      · exact ih hx hy

theorem first_mem {id : ℕ} (h : First p order (some id)) : id ∈ order := by
  induction order with
  | nil => cases h
  | cons other rest ih =>
    rcases h with ⟨-, heq⟩ | ⟨-, h⟩
    · exact Option.some.inj heq ▸ List.mem_cons_self
    · exact List.mem_cons_of_mem _ (ih h)

/-- Every search of the graph, read off its tab order. -/
structure Searched (v : MountedGraph K) (order : List ℕ) : Prop where
  stops : focusOrder v = .ok order
  listed : ∀ id, id ∈ order ↔ Focusable v id
  named : ∀ name, ∃ x, findFocusIdentity v name = .ok x ∧ First (Called v name) order x
  inside : ∀ d, ∃ x, firstFocusableIn v d = .ok x ∧ First (Below v d) order x
  place : ∀ n, focusDestination v n = .ok (atPlace order n)

def stops (nodes : List (Node K)) : List ℕ :=
  nodes.filterMap fun node => if (focusIdentity node.kind).isSome then some node.id else none

omit [DecidableEq K] in
theorem stops_cons (node : Node K) (nodes : List (Node K)) : stops (node :: nodes) =
    if (focusIdentity node.kind).isSome then node.id :: stops nodes else stops nodes := by
  rw [stops, List.filterMap_cons]
  by_cases hfocus : (focusIdentity node.kind).isSome
  · rw [if_pos hfocus, if_pos hfocus]
    rfl
  · rw [if_neg hfocus, if_neg hfocus]
    rfl

omit [DecidableEq K] in
theorem named_first (name : ℕ × String) (nodes : List (Node K))
    (known : ∀ n ∈ nodes, v.node n.id = some n) : First (Called v name) (stops nodes)
      (nodes.findSome? fun node => if focusIdentity node.kind = some name then some node.id else none) := by
  induction nodes with
  | nil => rfl
  | cons node rest ih =>
    have hrest := ih fun n hn => known n (List.mem_cons_of_mem _ hn)
    have hcalled : Called v name node.id ↔ focusIdentity node.kind = some name := by
      rw [Called, roleAndName, known node List.mem_cons_self, Option.bind_some]
    rw [stops_cons, List.findSome?_cons]
    by_cases hname : focusIdentity node.kind = some name
    · rw [if_pos hname, if_pos (Option.isSome_of_eq_some hname)]
      exact .inl ⟨hcalled.mpr hname, rfl⟩
    · rw [if_neg hname]
      split
      · exact .inr ⟨fun h => hname (hcalled.mp h), hrest⟩
      · exact hrest

theorem inside_first (h : Shape v) (d : ℕ) (nodes : List (Node K)) :
    ∃ x, firstIn v d nodes = .ok x ∧ First (Below v d) (stops nodes) x := by
  induction nodes with
  | nil => exact ⟨none, rfl, rfl⟩
  | cons node rest ih =>
    obtain ⟨x, hx, hfirst⟩ := ih
    obtain ⟨inside, hinside⟩ := DialogRegions.descendant_total (ε := GraphError K) h node.id d
    have hbelow : Below v d node.id ↔ inside = true := by
      rw [Below, hinside, Except.ok.injEq]
    rw [firstIn, hinside, stops_cons]
    dsimp only [bind, Except.bind]
    by_cases hfocus : (focusIdentity node.kind).isSome
    · rw [if_pos hfocus]
      by_cases hd : inside = true
      · refine ⟨some node.id, ?_, .inl ⟨hbelow.mpr hd, rfl⟩⟩
        rw [if_pos (by rw [hd, hfocus]; rfl)]
        rfl
      · refine ⟨x, ?_, .inr ⟨fun h => hd (hbelow.mp h), hfirst⟩⟩
        rw [if_neg (by rw [Bool.and_eq_true]; exact fun h => hd h.1)]
        exact hx
    · rw [if_neg hfocus]
      refine ⟨x, ?_, hfirst⟩
      rw [if_neg (by rw [Bool.and_eq_true]; exact fun h => hfocus h.2)]
      exact hx

theorem searched (h : Shape v) (formed : Formed v) : ∃ order, Searched v order := by
  obtain ⟨nodes, hnodes, hlisted⟩ := preorder_lists h formed
  obtain ⟨order, horder, hmem⟩ := focus_order h formed
  have known : ∀ n ∈ nodes, v.node n.id = some n := fun n hn => (hlisted n).mp hn
  obtain rfl : stops nodes = order := by
    rw [focusOrder, hnodes] at horder
    exact Except.ok.inj horder
  refine ⟨stops nodes, horder, hmem, fun name => ⟨_, ?_, named_first name nodes known⟩, fun d => ?_,
    fun n => ?_⟩
  · rw [findFocusIdentity, hnodes]
    rfl
  · rw [firstFocusableIn, hnodes]
    exact inside_first h d nodes
  · rw [focusDestination, horder]
    dsimp only [bind, Except.bind]
    by_cases hnil : stops nodes = []
    · rw [if_pos hnil, hnil]
      rfl
    · rw [if_neg hnil]
      rfl

theorem request_answered (h : Shape v) (formed : Formed v) :
    ∃ requested, answer (takeFocusRequest.run v) = .ok requested := by
  have h' : Shape (requestsTaken v) := ⟨h.orders, h.linked, h.weighed, h.issued⟩
  have formed' : Formed (requestsTaken v) := ⟨formed.named, formed.counted, formed.ordered⟩
  obtain ⟨answered, hanswered⟩ :=
    (request_lands h' formed' v.interaction.keyboard.requests).answers
  refine ⟨answered, ?_⟩
  have hquery : (query fun g => focusRequest g v.interaction.keyboard.requests).run
      (requestsTaken v) = .ok answered _ := query_ok hanswered
  change answer ((query fun g => focusRequest g v.interaction.keyboard.requests).run _) = _
  rw [hquery]
  rfl

end Searches

section Frames

variable {t : Turn K}

theorem quiet_patch {g v : MountedGraph K} {d : Delivery K} {a : GraphApply K}
    (hrun : (apply d.1 d.2).run g = .ok a v) (hkind : a.facts.kind = "no_change") :
    v = g ∧ a.removedIds = [] := by
  obtain ⟨hashOrder, patch⟩ := d
  have replaced {r : Replacement K} (hrun : (applyReplacement r).run g = .ok a v) :
      v = g ∧ a.removedIds = [] := by
    obtain ⟨plan, -, told⟩ := replacement_told hrun
    exact absurd hkind told.kind.1
  cases patch with
  | noChange =>
    refine ⟨noChange_run hrun, ?_⟩
    simp only [apply, bind_ok, get_ok, pure_ok] at hrun
    obtain ⟨_, _, -, rfl, -⟩ := hrun
    rfl
  | mount root nodes => exact replaced hrun
  | replace oldRoot root nodes => exact replaced hrun
  | replaceRetaining oldRoot root nodes retainedRoots => exact replaced hrun
  | keyed container baseRevision newRevision operations =>
    simp only [apply, bind_ok, get_ok, pure_ok] at hrun
    obtain ⟨keyed, _, hkeyed, _, _, ⟨rfl, rfl⟩, rfl, rfl⟩ := hrun
    exact absurd (show "keyed" = "no_change" from hkind) (by decide)

def Turn.given (t : Turn K) (target : Option ℕ) : Option ℕ :=
  (target.bind t.begun.focusHandles.get).or (if t.toRoot then none else t.held)

/-- The handles when the frame begins and when it is drawn stand for those that identities tell. -/
theorem frame_handles (valid : t.Valid) : ∃ value value', Extends value value' ∧
    (∀ h < t.views.nextHandle, value (.held h) = some h) ∧
    (∀ s s' h, value' s = some h → value' s' = some h → s = s') ∧
    (∀ id, Option.Rel (fun s h => value s = some h) (t.sourceIn t.built id) (t.begun.focusHandles.get id)) ∧
    ∀ id, id ∉ t.released → Option.Rel (fun s h => value' s = some h)
      (t.sourceIn (t.built ++ t.rows) id) (t.shown.focusHandles.get id) := by
  obtain ⟨issued, -⟩ := valid.issued
  have hbase : ∀ id h, (if id ∈ t.report.removedIds then none else t.views.focusHandles.get id) = some h →
      h < (t.views.offer t.doomed).nextHandle := by
    intro id h hid
    split at hid
    · cases hid
    · exact issued.controls id h hid
  have released {w : Window K} {id : ℕ} (hid : id ∉ t.released) :
      (w.retire t.released).focusHandles.get id = w.focusHandles.get id := by
    rw [Window.retire, get_removed, if_neg hid]
  by_cases hkind : t.report.facts.kind = "no_change"
  · obtain ⟨hbuilt, hrows, -⟩ := valid.quiet hkind
    obtain ⟨d, hrun, -⟩ := valid.step
    have s : Sourced t.after.graph t.after.identities (t.views.offer t.doomed) _ _ [] _ _ :=
      first_sourced _
    have hsource (id : ℕ) : t.sourceIn [] id = FocusHandles.sourceIn t.after.graph t.after.identities
        (t.views.offer t.doomed) t.views.editors.get t.views.focusHandles.get [] id := by
      rw [Turn.sourceIn, (quiet_patch hrun hkind).2]
      simp [FocusHandles.sourceIn]
    have hbegun : t.begun = t.views := if_pos hkind
    have hrel (id : ℕ) := sourced_rel s issued.controls id
    refine ⟨_, _, fun _ _ h => h, s.held, s.injective, fun id => ?_, fun id hid => ?_⟩
    · rw [hbuilt, hsource, hbegun]
      exact hrel id
    · rw [hbuilt, hrows, List.append_nil, hsource, Turn.shown, hrows, released hid, List.foldl_nil, hbegun]
      exact hrel id
  · obtain ⟨value, value', hmore, s, s'⟩ := frame_sourced issued t.doomed t.built t.rows
      t.report.removedIds t.dropped (fun id hid => (valid.drawn id hid).1)
      valid.nodup (fun id hid => (valid.drawn id hid).2) (fun id hid => (valid.kept id hid).1)
      fun id hid => (valid.kept id hid).2
    have hbegun : t.begun = ((t.views.materialize t.after.graph t.after.identities t.doomed
        t.built).retire t.report.removedIds).dropEditors t.dropped := if_neg hkind
    rw [← hbegun] at s s'
    refine ⟨value, value', hmore, s.held, s'.injective, sourced_rel s hbase, fun id hid => ?_⟩
    rw [Turn.shown, released hid]
    exact sourced_rel s' hbase id

theorem lands_iff (valid : t.Valid) (target x : Option ℕ) :
    (∀ id, x = some id ↔ t.focuses (t.given target) id) ↔ t.Lands target x := by
  obtain ⟨value, value', hmore, hheld, injective, hbegun, hshown⟩ := frame_handles valid
  have hgiven : Option.Rel (fun s h => value' s = some h) (t.inUse target) (t.given target) := by
    refine rel_extends hmore (rel_or ?_ ?_)
    · cases target with
      | none => exact .none
      | some y => exact hbegun y
    · split
      · exact .none
      · cases hget : t.held with
        | none => exact .none
        | some h => exact .some (hheld h (valid.issued.2 h hget))
  refine forall_congr' fun id => iff_congr Iff.rfl ?_
  by_cases hid : id ∈ t.released
  · have hnone : t.shown.focusHandles.get id = none := by
      rw [Turn.shown, Window.retire, get_removed, if_pos hid]
    refine ⟨fun h => ?_, fun h => absurd hid h.1⟩
    rw [Turn.focuses, hnone] at h
    rw [← h.2] at h
    cases h.1
  · rw [Turn.focuses, rel_same injective hgiven (hshown id hid)]
    exact ⟨fun h => ⟨hid, h⟩, fun h => h.2⟩

end Frames

section Answers

variable {t : Turn K} {order : List ℕ} {requested x y : Option ℕ} (s : Searched t.after.graph order)

theorem kept_unique (hx : Kept t order x) (hy : Kept t order y) : x = y := by
  unfold Kept at hx hy
  cases hfocused : t.focused with
  | none =>
    rw [hfocused] at hx hy
    exact hx.trans hy.symm
  | some f =>
    rw [hfocused] at hx hy
    dsimp only at hx hy
    by_cases hlive : (t.after.graph.nodes.get f.1).isSome
    · rw [if_pos hlive] at hx hy
      exact hx.trans hy.symm
    · rw [if_neg hlive] at hx hy
      obtain ⟨name, hname, hx⟩ := hx
      obtain ⟨name', hname', hy⟩ := hy
      obtain rfl := Option.some.inj (hname.symm.trans hname')
      exact first_unique hx hy

include s in
theorem kept_found (named : ∀ f ∈ t.focused, ∃ name, roleAndName t.before.graph f.1 = some name) :
    ∃ x, settleFocus t.after.graph (t.runner.focused.bind (roleAndName t.before.graph))
      t.runner.focused = .ok x ∧ Kept t order x := by
  unfold Kept Turn.runner
  cases hfocused : t.focused with
  | none => exact ⟨none, rfl, rfl⟩
  | some f =>
    obtain ⟨name, hname⟩ := named f hfocused
    dsimp only [Option.map_some, Option.bind_some, settleFocus]
    by_cases hlive : (t.after.graph.nodes.get f.1).isSome
    · refine ⟨some f.1, if_neg ?_, if_pos hlive ▸ rfl⟩
      rw [Option.isNone_iff_eq_none]
      exact Option.isSome_iff_ne_none.mp hlive
    · have hnone := Option.isNone_iff_eq_none.mpr (Option.not_isSome_iff_eq_none.mp hlive)
      obtain ⟨x, hx, hfirst⟩ := s.named name
      refine ⟨x, ?_, ?_⟩
      · rw [if_pos hnone, hname]
        exact hx
      · rw [if_neg hlive]
        exact ⟨name, hname, hfirst⟩

include s in
theorem settle_found (hx : ∀ y ∈ x, y ∈ order) (before : Option (ℕ × String)) :
    settleFocus t.after.graph before x = .ok x := by
  cases x with
  | none => rfl
  | some id =>
    have hm := mounted_iff.mp (focusable_mounted ((s.listed id).mp (hx id rfl)))
    rw [settleFocus, if_neg]
    rw [Option.isNone_iff_eq_none]
    exact Option.isSome_iff_ne_none.mp hm

theorem runner_focus {r : RunnerFocus}
    (hrequest : answer (takeFocusRequest.run t.after.graph) = .ok requested)
    (hfollow : followTrigger t.before.graph t.after.graph t.trigger t.runner = .ok r)
    (hsettle : settleFocus t.after.graph (t.runner.focused.bind (roleAndName t.before.graph))
      r.focused = .ok x) : runnerFocus t = .ok (requested.or x) := by
  rw [runnerFocus, runnerStep, hfollow]
  dsimp only [bind, Except.bind]
  rw [hsettle, hrequest]
  cases requested with
  | none => rfl
  | some target => rfl

theorem window_focus {w : WindowFocus} (hkind : t.report.facts.kind ≠ "no_change")
    (hrequest : answer (takeFocusRequest.run t.after.graph) = .ok requested)
    (hfollow : followPatch t.after.graph t.find (noteTrigger t.before t.trigger t.window) = .ok w)
    (hroot : w.focusRootAfterRender = t.toRoot) :
    windowFocus t = .ok (t.given (requested.or w.focusAfterRender)) := by
  rw [windowFocus, windowStep, if_neg hkind, hfollow]
  dsimp only [bind, Except.bind]
  rw [hrequest]
  cases requested with
  | none =>
    dsimp only
    rw [Turn.given, ← hroot, Option.none_or]
    rfl
  | some target =>
    dsimp only
    rw [Turn.given, ← hroot, Option.some_or]
    rfl

omit [DecidableEq K] in
theorem note_trigger (rt : Runtime K) (trigger : Trigger) (w : WindowFocus) :
    ∃ last, noteTrigger rt trigger w = { w with lastTriggerFocus := last } := by
  unfold noteTrigger
  cases trigger with
  | click id => dsimp only; split <;> exact ⟨_, rfl⟩
  | pressKey id => dsimp only; split <;> exact ⟨_, rfl⟩
  | key => exact ⟨_, rfl⟩
  | submit id => exact ⟨_, rfl⟩
  | textChange => exact ⟨_, rfl⟩
  | canvas => exact ⟨_, rfl⟩
  | hover => exact ⟨_, rfl⟩
  | drop => exact ⟨_, rfl⟩
  | task => exact ⟨_, rfl⟩
  | timer => exact ⟨_, rfl⟩

end Answers

section Followed

variable {t : Turn K} {order : List ℕ} {requested : Option ℕ} (s : Searched t.after.graph order)

include s

theorem runner_opens {dialog : ℕ} (hbefore : t.before.graph.dialog = none)
    (hafter : t.after.graph.dialog = some dialog) :
    ∃ r, followTrigger t.before.graph t.after.graph t.trigger t.runner = .ok r ∧
      if t.trigger.opens then First (Below t.after.graph dialog) order r.focused
      else r.focused = t.runner.focused := by
  obtain ⟨x, hx, hfirst⟩ := s.inside dialog
  have hfollow (opener : Option (ℕ × String)) :
      followDialog t.before.graph t.after.graph opener t.runner = .ok ⟨x, opener⟩ := by
    rw [followDialog, hbefore, hafter]
    dsimp only
    rw [hx]
    rfl
  unfold followTrigger
  cases t.trigger with
  | click id => exact ⟨_, hfollow _, hfirst⟩
  | pressKey id => exact ⟨_, hfollow _, hfirst⟩
  | key => exact ⟨_, hfollow _, hfirst⟩
  | submit id =>
    rw [hbefore]
    exact ⟨_, rfl, rfl⟩
  | textChange => exact ⟨_, rfl, rfl⟩
  | canvas => exact ⟨_, rfl, rfl⟩
  | hover => exact ⟨_, rfl, rfl⟩
  | drop => exact ⟨_, rfl, rfl⟩
  | task => exact ⟨_, rfl, rfl⟩
  | timer => exact ⟨_, rfl, rfl⟩

theorem runner_closes {dialog : ℕ} (hbefore : t.before.graph.dialog = some dialog)
    (hafter : t.after.graph.dialog = none) :
    ∃ r, followTrigger t.before.graph t.after.graph t.trigger t.runner = .ok r ∧
      if t.trigger.closes then
        (t.opener = none → r.focused = none) ∧
          ∀ o ∈ t.opener, First (Called t.after.graph o.2) order r.focused
      else r.focused = t.runner.focused := by
  obtain ⟨x, hx, hnone, hfirst⟩ : ∃ x, findAgain t.after.graph t.runner.dialogReturnFocus = .ok x ∧
      (t.opener = none → x = none) ∧ ∀ o ∈ t.opener, First (Called t.after.graph o.2) order x := by
    unfold Turn.runner
    cases hopener : t.opener with
    | none => exact ⟨none, rfl, fun _ => rfl, nofun⟩
    | some o =>
      obtain ⟨x, hx, hfirst⟩ := s.named o.2
      refine ⟨x, hx, nofun, ?_⟩
      rintro _ ⟨⟩
      exact hfirst
  have hreturn : returnFocus t.after.graph t.runner = .ok ⟨x, none⟩ := by
    rw [returnFocus, hx]
    rfl
  have hfollow (opener : Option (ℕ × String)) :
      followDialog t.before.graph t.after.graph opener t.runner = .ok ⟨x, none⟩ := by
    rw [followDialog, hbefore, hafter]
    exact hreturn
  unfold followTrigger
  cases t.trigger with
  | click id => exact ⟨_, hfollow _, hnone, hfirst⟩
  | pressKey id => exact ⟨_, hfollow _, hnone, hfirst⟩
  | key => exact ⟨_, hfollow _, hnone, hfirst⟩
  | submit id =>
    rw [hbefore, hafter]
    exact ⟨_, hreturn, hnone, hfirst⟩
  | textChange => exact ⟨_, rfl, rfl⟩
  | canvas => exact ⟨_, rfl, rfl⟩
  | hover => exact ⟨_, rfl, rfl⟩
  | drop => exact ⟨_, rfl, rfl⟩
  | task => exact ⟨_, rfl, rfl⟩
  | timer => exact ⟨_, rfl, rfl⟩

omit s in
theorem runner_stays (same : t.before.graph.dialog.isSome = t.after.graph.dialog.isSome) :
    followTrigger t.before.graph t.after.graph t.trigger t.runner = .ok t.runner := by
  have hfollow (opener : Option (ℕ × String)) :
      followDialog t.before.graph t.after.graph opener t.runner = .ok t.runner := by
    unfold followDialog
    split
    · rename_i hbefore hafter
      rw [hbefore, hafter] at same
      cases same
    · rename_i hbefore hafter
      rw [hbefore, hafter] at same
      cases same
    · rfl
  unfold followTrigger
  cases t.trigger with
  | click id => exact hfollow _
  | pressKey id => exact hfollow _
  | key => exact hfollow _
  | submit id =>
    dsimp only
    split
    · rename_i hbefore hafter
      rw [hbefore, hafter] at same
      cases same
    · rfl
  | textChange => rfl
  | canvas => rfl
  | hover => rfl
  | drop => rfl
  | task => rfl
  | timer => rfl

omit s in
theorem root_kept (same : t.before.graph.dialog.isSome = t.after.graph.dialog.isSome) :
    t.toRoot = false := by
  rw [Turn.toRoot, same]
  cases t.after.graph.dialog with
  | none => rfl
  | some dialog => rfl

theorem window_stays (same : t.before.graph.dialog.isSome = t.after.graph.dialog.isSome)
    (last : Option ElementIdentity) :
    ∃ w, followPatch t.after.graph t.find { t.window with lastTriggerFocus := last } = .ok w ∧
      w.focusRootAfterRender = t.toRoot ∧ (t.focused = none → w.focusAfterRender = none) ∧
      ∀ f ∈ t.focused, w.focusAfterRender =
        if (t.after.graph.nodes.get f.1).isSome then none
        else (t.find f.2).or (t.position.bind (atPlace order)) := by
  have hplace (w : WindowFocus) (hw : w.focusedPosition = t.position) :
      placeTaken t.after.graph w = .ok (t.position.bind (atPlace order)) := by
    rw [placeTaken, hw]
    cases t.position with
    | none => rfl
    | some wasAt => exact s.place wasAt
  have hfall : followPatch t.after.graph t.find { t.window with lastTriggerFocus := last } =
      match t.focused with
      | none => .ok { t.window with lastTriggerFocus := last }
      | some (id, identity) =>
        if (t.after.graph.nodes.get id).isSome then .ok { t.window with lastTriggerFocus := last }
        else match t.find identity with
          | some target =>
            .ok { t.window with lastTriggerFocus := last, focusAfterRender := some target }
          | none => do
            let target ← placeTaken t.after.graph { t.window with lastTriggerFocus := last }
            return { t.window with lastTriggerFocus := last, focusAfterRender := target } := by
    unfold followPatch
    split
    · rename_i hbefore hafter
      have hopen : t.before.graph.dialog = none := hbefore
      rw [hopen, hafter] at same
      cases same
    · rename_i hbefore hafter
      have hopen : t.before.graph.dialog = some _ := hbefore
      rw [hopen, hafter] at same
      cases same
    · rfl
  rw [hfall, root_kept same]
  cases hfocused : t.focused with
  | none => exact ⟨_, rfl, rfl, fun _ => rfl, nofun⟩
  | some f =>
    dsimp only
    by_cases hlive : (t.after.graph.nodes.get f.1).isSome
    · refine ⟨_, if_pos hlive, rfl, nofun, ?_⟩
      rintro _ ⟨⟩
      rw [if_pos hlive]
      rfl
    · cases hfind : t.find f.2 with
      | some target =>
        refine ⟨_, if_neg hlive, rfl, nofun, ?_⟩
        rintro _ ⟨⟩
        rw [if_neg hlive, hfind]
        rfl
      | none =>
        refine ⟨{ t.window with
          lastTriggerFocus := last
          focusAfterRender := t.position.bind (atPlace order) }, ?_, rfl, nofun, ?_⟩
        · rw [if_neg hlive, hplace _ rfl]
          rfl
        · rintro _ ⟨⟩
          rw [if_neg hlive, hfind, Option.none_or]

theorem window_opens {dialog : ℕ} (hbefore : t.before.graph.dialog = none)
    (hafter : t.after.graph.dialog = some dialog) (last : Option ElementIdentity) :
    ∃ w, followPatch t.after.graph t.find { t.window with lastTriggerFocus := last } = .ok w ∧
      w.focusRootAfterRender = t.toRoot ∧
      First (Below t.after.graph dialog) order w.focusAfterRender := by
  obtain ⟨x, hx, hfirst⟩ := s.inside dialog
  refine ⟨{ t.window with
    dialogReturnFocus := last
    lastTriggerFocus := none
    focusAfterRender := x }, ?_, ?_, hfirst⟩
  · unfold followPatch
    dsimp only [Turn.window]
    rw [hbefore, hafter]
    dsimp only
    rw [hx]
    rfl
  · rw [Turn.toRoot, hbefore]
    rfl

omit s in
theorem window_closes {dialog : ℕ} (hbefore : t.before.graph.dialog = some dialog)
    (hafter : t.after.graph.dialog = none) (last : Option ElementIdentity) :
    ∃ w, followPatch t.after.graph t.find { t.window with lastTriggerFocus := last } = .ok w ∧
      w.focusRootAfterRender = t.toRoot ∧
      w.focusAfterRender = (t.opener.map Prod.fst).bind t.find := by
  refine ⟨{ t.window with
    lastTriggerFocus := last
    dialogReturnFocus := none
    focusAfterRender := (t.opener.map Prod.fst).bind t.find
    focusRootAfterRender := ((t.opener.map Prod.fst).bind t.find).isNone }, ?_, ?_, rfl⟩
  · unfold followPatch
    dsimp only [Turn.window]
    rw [hbefore, hafter]
  · rw [Turn.toRoot, hbefore, hafter]
    rfl

end Followed

section Agreement

variable {t : Turn K}

theorem no_request {v : MountedGraph K} (h : v.interaction.keyboard.requests = []) :
    answer (takeFocusRequest.run v) = .ok none := by
  change answer ((query fun g => focusRequest g v.interaction.keyboard.requests).run _) = _
  rw [h]
  rfl

/-- What is known of the two sides of a turn. -/
structure Sides (t : Turn K) (order : List ℕ) (requested : Option ℕ) : Prop where
  searched : Searched t.after.graph order
  request : answer (takeFocusRequest.run t.after.graph) = .ok requested
  named : ∀ f ∈ t.focused, ∃ name, roleAndName t.before.graph f.1 = some name
  quiet : t.report.facts.kind = "no_change" → t.after.graph = t.before.graph ∧ requested = none
  live : t.report.facts.kind = "no_change" →
    ∀ f ∈ t.focused, (t.after.graph.nodes.get f.1).isSome

theorem sides (valid : t.Valid) : ∃ order requested, Sides t order requested := by
  obtain ⟨g, i, hreach, hbefore, hnone⟩ := valid.reached
  obtain ⟨d, hrun, -⟩ := valid.step
  have hshape := shape_reachable hreach
  have hformed := formed_reachable hreach
  have shape : Shape t.before.graph := by
    rw [hbefore]
    exact ⟨hshape.orders, hshape.linked, hshape.weighed, hshape.issued⟩
  have formed : Formed t.before.graph := by
    rw [hbefore]
    exact ⟨hformed.named, hformed.counted, hformed.ordered⟩
  have shape' : Shape t.after.graph := step_shape shape ⟨d.1, t.report, hrun⟩
  have formed' : Formed t.after.graph := step_formed shape formed ⟨d.1, t.report, hrun⟩
  obtain ⟨order, hsearched⟩ := searched shape' formed'
  obtain ⟨requested, hrequest⟩ := request_answered shape' formed'
  refine ⟨order, requested, hsearched, hrequest, fun f hf => ?_, fun hkind => ?_, fun hkind f hf => ?_⟩
  · obtain ⟨n, hn, hfocus⟩ := valid.focused f hf
    obtain ⟨name, hname⟩ := Option.isSome_iff_exists.mp hfocus
    exact ⟨name, by rw [roleAndName, hn]; exact hname⟩
  · have hsame := (quiet_patch hrun hkind).1
    refine ⟨hsame, ?_⟩
    have hempty : t.after.graph.interaction.keyboard.requests = [] := by
      rw [hsame, hbefore]
      exact hnone
    exact Except.ok.inj (hrequest.symm.trans (no_request hempty))
  · rw [(quiet_patch hrun hkind).1]
    exact mounted_iff.mp (focusable_mounted (valid.focused f hf))

variable {order : List ℕ} {requested R target : Option ℕ}

/-- The focus the runner is left with, and the one the window is to give, apart from what a region
asks for. -/
structure Left (t : Turn K) (requested R target : Option ℕ) : Prop where
  runner : runnerFocus t = .ok (requested.or R)
  window : windowFocus t = .ok (t.given (requested.or target))

theorem agrees_of_left (valid : t.Valid) (sd : Sides t order requested)
    (left : Left t requested R target) : FocusAgrees t ↔
      t.Lands (requested.or target) (requested.or R) ∧ (requested = none → Policy t order none R) := by
  constructor
  · rintro ⟨order', requested', x, handle, horder, hrequest, hrunner, hwindow, hfocuses, hpolicy⟩
    obtain rfl := Except.ok.inj (sd.searched.stops.symm.trans horder)
    obtain rfl := Except.ok.inj (sd.request.symm.trans hrequest)
    obtain rfl := Except.ok.inj (left.runner.symm.trans hrunner)
    obtain rfl := Except.ok.inj (left.window.symm.trans hwindow)
    refine ⟨(lands_iff valid _ _).mp hfocuses, ?_⟩
    rintro rfl
    exact hpolicy
  · rintro ⟨hlands, hpolicy⟩
    refine ⟨order, requested, requested.or R, _, sd.searched.stops, sd.request, left.runner,
      left.window, (lands_iff valid _ _).mpr hlands, ?_⟩
    cases requested with
    | none => exact hpolicy rfl
    | some asked => rfl

theorem loud (sd : Sides t order requested)
    (hdialog : t.before.graph.dialog.isSome ≠ t.after.graph.dialog.isSome) :
    t.report.facts.kind ≠ "no_change" := fun hkind =>
  hdialog (congrArg (·.dialog.isSome) (sd.quiet hkind).1).symm

theorem left_opens (sd : Sides t order requested) {dialog : ℕ} (hbefore : t.before.graph.dialog = none)
    (hafter : t.after.graph.dialog = some dialog) :
    ∃ R x, Left t requested R x ∧ First (Below t.after.graph dialog) order x ∧
      if t.trigger.opens then R = x else Kept t order R := by
  obtain ⟨r, hfollow, hr⟩ := runner_opens sd.searched hbefore hafter
  obtain ⟨last, hlast⟩ := note_trigger t.before t.trigger t.window
  obtain ⟨w, hw, hroot, hfirst⟩ := window_opens sd.searched hbefore hafter last
  have hwindow := window_focus (loud sd (by rw [hbefore, hafter]; exact Bool.false_ne_true))
    sd.request (by rw [hlast]; exact hw) hroot
  by_cases hopens : t.trigger.opens
  · rw [if_pos hopens] at hr
    have heq := first_unique hr hfirst
    have hmem : ∀ y ∈ r.focused, y ∈ order := fun y hy => first_mem (Option.mem_def.mp hy ▸ hr)
    refine ⟨r.focused, _, ⟨?_, hwindow⟩, hfirst, by rwa [if_pos hopens]⟩
    exact runner_focus sd.request hfollow (settle_found sd.searched hmem _)
  · rw [if_neg hopens] at hr
    obtain ⟨R, hsettle, hkept⟩ := kept_found sd.searched sd.named
    refine ⟨R, _, ⟨?_, hwindow⟩, hfirst, by rwa [if_neg hopens]⟩
    exact runner_focus sd.request hfollow (hr ▸ hsettle)

theorem left_closes (sd : Sides t order requested) {dialog : ℕ}
    (hbefore : t.before.graph.dialog = some dialog) (hafter : t.after.graph.dialog = none) :
    ∃ R, Left t requested R ((t.opener.map Prod.fst).bind t.find) ∧
      if t.trigger.closes then
        (t.opener = none → R = none) ∧ ∀ o ∈ t.opener, First (Called t.after.graph o.2) order R
      else Kept t order R := by
  obtain ⟨r, hfollow, hr⟩ := runner_closes sd.searched hbefore hafter
  obtain ⟨last, hlast⟩ := note_trigger t.before t.trigger t.window
  obtain ⟨w, hw, hroot, htarget⟩ := window_closes hbefore hafter last
  have hwindow := window_focus (loud sd (by rw [hbefore, hafter]; exact nofun))
    sd.request (by rw [hlast]; exact hw) hroot
  rw [htarget] at hwindow
  by_cases hcloses : t.trigger.closes
  · rw [if_pos hcloses] at hr
    have hmem : ∀ y ∈ r.focused, y ∈ order := by
      intro y hy
      cases hopener : t.opener with
      | none =>
        rw [hr.1 hopener] at hy
        cases hy
      | some o => exact first_mem (Option.mem_def.mp hy ▸ hr.2 o hopener)
    refine ⟨r.focused, ⟨?_, hwindow⟩, by rwa [if_pos hcloses]⟩
    exact runner_focus sd.request hfollow (settle_found sd.searched hmem _)
  · rw [if_neg hcloses] at hr
    obtain ⟨R, hsettle, hkept⟩ := kept_found sd.searched sd.named
    refine ⟨R, ⟨?_, hwindow⟩, by rwa [if_neg hcloses]⟩
    exact runner_focus sd.request hfollow (hr ▸ hsettle)

theorem left_stays (sd : Sides t order requested)
    (same : t.before.graph.dialog.isSome = t.after.graph.dialog.isSome) :
    ∃ R target, Left t requested R target ∧ Kept t order R ∧ (t.focused = none → target = none) ∧
      ∀ f ∈ t.focused, target = if (t.after.graph.nodes.get f.1).isSome then none
        else (t.find f.2).or (t.position.bind (atPlace order)) := by
  obtain ⟨last, hlast⟩ := note_trigger t.before t.trigger t.window
  obtain ⟨R, hsettle, hkept⟩ := kept_found sd.searched sd.named
  have hrunner := runner_focus sd.request (runner_stays same) hsettle
  by_cases hkind : t.report.facts.kind = "no_change"
  · have hwindow : windowFocus t = .ok (t.given (requested.or none)) := by
      rw [windowFocus, windowStep, if_pos hkind, (sd.quiet hkind).2, hlast, Turn.given, root_kept same]
      rfl
    exact ⟨R, none, ⟨hrunner, hwindow⟩, hkept, fun _ => rfl,
      fun f hf => (if_pos (sd.live hkind f hf)).symm⟩
  · obtain ⟨w, hw, hroot, hnone, hsome⟩ := window_stays sd.searched same last
    have hwindow := window_focus hkind sd.request (by rw [hlast]; exact hw) hroot
    exact ⟨R, _, ⟨hrunner, hwindow⟩, hkept, hnone, hsome⟩

theorem opens_iff (valid : t.Valid) (sd : Sides t order requested) {dialog : ℕ}
    (hbefore : t.before.graph.dialog = none) (hafter : t.after.graph.dialog = some dialog) :
    FocusAgrees t ↔ Recognised t order requested := by
  obtain ⟨R, x, left, hfirst, hR⟩ := left_opens sd hbefore hafter
  rw [agrees_of_left valid sd left, Recognised.eq_def, Policy.eq_def, hbefore, hafter]
  cases requested with
  | some asked => exact ⟨fun h => h.1, fun h => ⟨h, nofun⟩⟩
  | none =>
    simp only [Option.none_or, forall_const]
    constructor
    · rintro ⟨hlands, hpolicy⟩
      obtain rfl := first_unique hfirst hpolicy
      refine ⟨x, hfirst, hlands, ?_⟩
      by_cases hopens : t.trigger.opens = true
      · exact .inl hopens
      · rw [if_neg hopens] at hR
        exact .inr hR
    · rintro ⟨x', hx', hlands, hfollows⟩
      obtain rfl := first_unique hfirst hx'
      have hRx : R = x := by
        by_cases hopens : t.trigger.opens = true
        · rwa [if_pos hopens] at hR
        · rw [if_neg hopens] at hR
          exact kept_unique hR (hfollows.resolve_left hopens)
      rw [hRx]
      exact ⟨hlands, hfirst⟩

theorem closes_iff (valid : t.Valid) (sd : Sides t order requested) {dialog : ℕ}
    (hbefore : t.before.graph.dialog = some dialog) (hafter : t.after.graph.dialog = none) :
    FocusAgrees t ↔ Recognised t order requested := by
  obtain ⟨R, left, hR⟩ := left_closes sd hbefore hafter
  rw [agrees_of_left valid sd left, Recognised.eq_def, Policy.eq_def, hbefore, hafter]
  cases requested with
  | some asked => exact ⟨fun h => h.1, fun h => ⟨h, nofun⟩⟩
  | none =>
    simp only [Option.none_or, forall_const]
    by_cases hcloses : t.trigger.closes = true
    · rw [if_pos hcloses] at hR ⊢
      constructor
      · rintro ⟨hlands, hpolicy⟩
        refine ⟨hpolicy ▸ hlands, fun o ho => ?_⟩
        have hfirst := hR.2 o ho
        rw [hpolicy, Option.mem_def.mp ho] at hfirst
        exact hfirst
      · rintro ⟨hlands, hall⟩
        have hpolicy : R = (t.opener.map Prod.fst).bind (t.control order) := by
          cases hopener : t.opener with
          | none => exact hR.1 hopener
          | some o => exact first_unique (hR.2 o hopener) (hall o hopener)
        exact ⟨hpolicy ▸ hlands, hpolicy⟩
    · rw [if_neg hcloses] at hR ⊢
      constructor
      · rintro ⟨hlands, hpolicy⟩
        exact ⟨hpolicy ▸ hlands, hpolicy ▸ hR⟩
      · rintro ⟨hlands, hkept⟩
        have hpolicy := kept_unique hR hkept
        exact ⟨hpolicy ▸ hlands, hpolicy⟩

theorem recognised_stays (same : t.before.graph.dialog.isSome = t.after.graph.dialog.isSome) :
    Recognised t order none ↔ (t.focused = none → t.Lands none none) ∧ ∀ f ∈ t.focused,
      if (t.after.graph.nodes.get f.1).isSome then t.Lands none (some f.1)
      else t.Lands ((t.find f.2).or (t.position.bind (atPlace order)))
          ((t.control order f.2).or (t.position.bind (atPlace order))) ∧
        Kept t order ((t.control order f.2).or (t.position.bind (atPlace order))) := by
  rw [Recognised.eq_def]
  split
  · rename_i heq
    cases heq
  · rename_i hbefore hafter
    rw [hbefore, hafter] at same
    cases same
  · rename_i hbefore hafter
    rw [hbefore, hafter] at same
    cases same
  · cases t.focused with
    | none => exact ⟨fun h => ⟨fun _ => h, nofun⟩, fun h => h.1 rfl⟩
    | some f =>
      refine ⟨fun h => ⟨nofun, ?_⟩, fun h => h.2 f rfl⟩
      rintro _ ⟨⟩
      exact h

theorem policy_stays (same : t.before.graph.dialog.isSome = t.after.graph.dialog.isSome) :
    Policy t order none R ↔ (t.focused = none → R = none) ∧ ∀ f ∈ t.focused,
      R = if (t.after.graph.nodes.get f.1).isSome then some f.1
        else (t.control order f.2).or (t.position.bind (atPlace order)) := by
  rw [Policy.eq_def]
  split
  · rename_i heq
    cases heq
  · rename_i hbefore hafter
    rw [hbefore, hafter] at same
    cases same
  · rename_i hbefore hafter
    rw [hbefore, hafter] at same
    cases same
  · cases t.focused with
    | none => exact ⟨fun h => ⟨fun _ => h, nofun⟩, fun h => h.1 rfl⟩
    | some f =>
      dsimp only
      by_cases hlive : (t.after.graph.nodes.get f.1).isSome
      · rw [if_pos hlive]
        refine ⟨fun h => ⟨nofun, ?_⟩, fun h => by simpa [hlive] using h.2 f rfl⟩
        rintro _ ⟨⟩
        rw [if_pos hlive, h]
      · rw [if_neg hlive]
        refine ⟨fun h => ⟨nofun, ?_⟩, fun h => by simpa [hlive] using h.2 f rfl⟩
        rintro _ ⟨⟩
        rw [if_neg hlive, h]

theorem stays_iff (valid : t.Valid) (sd : Sides t order requested)
    (same : t.before.graph.dialog.isSome = t.after.graph.dialog.isSome) :
    FocusAgrees t ↔ Recognised t order requested := by
  obtain ⟨R, target, left, hkept, hnone, hsome⟩ := left_stays sd same
  rw [agrees_of_left valid sd left]
  cases requested with
  | some asked =>
    unfold Recognised
    exact ⟨fun h => h.1, fun h => ⟨h, nofun⟩⟩
  | none =>
    simp only [Option.none_or, forall_const]
    rw [recognised_stays same, policy_stays same]
    cases hfocused : t.focused with
    | none =>
      have hR : R = none := by
        unfold Kept at hkept
        rwa [hfocused] at hkept
      rw [hnone hfocused, hR]
      exact ⟨fun h => ⟨fun _ => h.1, nofun⟩, fun h => ⟨h.1 rfl, fun _ => rfl, nofun⟩⟩
    | some f =>
      have htarget := hsome f hfocused
      have whole {p : ℕ × ElementIdentity → Prop} {q : Prop} :
          (some f = none → q) ∧ (∀ f' ∈ some f, p f') ↔ p f := by
        refine ⟨fun h => h.2 f rfl, fun h => ⟨nofun, ?_⟩⟩
        rintro _ ⟨⟩
        exact h
      rw [whole, whole]
      by_cases hlive : (t.after.graph.nodes.get f.1).isSome
      · rw [if_pos hlive] at htarget
        have hR : R = some f.1 := by
          unfold Kept at hkept
          rw [hfocused] at hkept
          exact (if_pos hlive).mp hkept
        rw [if_pos hlive, if_pos hlive, htarget, hR]
        exact ⟨fun h => h.1, fun h => ⟨h, rfl⟩⟩
      · rw [if_neg hlive] at htarget
        rw [if_neg hlive, if_neg hlive, htarget]
        constructor
        · rintro ⟨hlands, hpolicy⟩
          exact ⟨hpolicy ▸ hlands, hpolicy ▸ hkept⟩
        · rintro ⟨hlands, hkept'⟩
          have hpolicy := kept_unique hkept hkept'
          exact ⟨hpolicy ▸ hlands, hpolicy⟩

/-- After one patch the runner and the window give focus to one control, as the policy says,
exactly when the control can be told by its role and name and the runner follows the dialogs. -/
theorem focus_agrees_iff (valid : t.Valid) : FocusAgrees t ↔ ∃ order requested,
    focusOrder t.after.graph = .ok order ∧
      answer (takeFocusRequest.run t.after.graph) = .ok requested ∧ Recognised t order requested := by
  obtain ⟨order, requested, sd⟩ := sides valid
  have hiff : FocusAgrees t ↔ Recognised t order requested := by
    cases hbefore : t.before.graph.dialog with
    | none =>
      cases hafter : t.after.graph.dialog with
      | none => exact stays_iff valid sd (by rw [hbefore, hafter])
      | some dialog => exact opens_iff valid sd hbefore hafter
    | some opened =>
      cases hafter : t.after.graph.dialog with
      | none => exact closes_iff valid sd hbefore hafter
      | some dialog => exact stays_iff valid sd (by rw [hbefore, hafter]; rfl)
  rw [hiff]
  constructor
  · exact fun h => ⟨order, requested, sd.searched.stops, sd.request, h⟩
  · rintro ⟨order', requested', horder, hrequest, h⟩
    obtain rfl := Except.ok.inj (sd.searched.stops.symm.trans horder)
    obtain rfl := Except.ok.inj (sd.request.symm.trans hrequest)
    exact h

end Agreement

section Rebuilt

def viewsOf (rt : Runtime ℕ) : Window ℕ :=
  Window.empty.materialize rt.graph rt.identities []
    ((Enumeration.sorted.entries rt.graph.nodes).map Prod.fst)

def identified (rt : Runtime ℕ) (focused : Option ℕ) : Option (ℕ × ElementIdentity) :=
  focused.bind fun id => (rt.identities.get id).map fun identity => (id, identity)

def reportOf (rt : Runtime ℕ) (patch : Patch ℕ) : GraphApply ℕ :=
  (answer ((apply .sorted patch).run rt.graph)).toOption.getD
    ⟨⟨"", 0, 0, 0, 0, 0, 0, 0, 0, 0⟩, none, [], [], false, none, [], [], [], []⟩

def turnOf (rt : Runtime ℕ) (patch : Patch ℕ) (trigger : Trigger) (focused : Option ℕ) : Turn ℕ where
  before := rt
  after := given rt patch
  report := reportOf rt patch
  trigger := trigger
  hashOrder := .sorted
  focused := identified rt focused
  position := (identified rt focused).bind fun f => ((focusOrder rt.graph).toOption.getD []).idxOf? f.1
  opener := none
  lastTrigger := none
  views := viewsOf rt
  held := (identified rt focused).bind fun f => (viewsOf rt).focusHandles.get f.1
  doomed := (reportOf rt patch).removedIds
  built := (reportOf rt patch).stagedIds
  dropped := []
  rows := []
  released := []

/-- What a patch stages is new, and one control has the handle in use. -/
structure Stages (rt : Runtime ℕ) (patch : Patch ℕ) (focused : Option ℕ) : Prop where
  loud : (reportOf rt patch).facts.kind ≠ "no_change"
  nodup : (reportOf rt patch).stagedIds.Nodup
  fresh : ∀ id ∈ (reportOf rt patch).stagedIds, ((given rt patch).graph.node id).isSome ∧
    (viewsOf rt).focusHandles.get id = none ∧ id ∉ (reportOf rt patch).removedIds
  held : ∀ f ∈ (identified rt focused).toList, ((viewsOf rt).focusHandles.get f.1).isSome ∧
    ∀ entry ∈ Enumeration.sorted.entries (viewsOf rt).focusHandles,
      some entry.2 = (viewsOf rt).focusHandles.get f.1 → entry.1 = f.1

instance (rt : Runtime ℕ) (patch : Patch ℕ) (focused : Option ℕ) : Decidable (Stages rt patch focused) :=
  decidable_of_iff (_ ∧ _ ∧ _ ∧ _)
    ⟨fun h => ⟨h.1, h.2.1, h.2.2.1, h.2.2.2⟩, fun h => ⟨h.loud, h.nodup, h.fresh, h.held⟩⟩

variable {rt : Runtime ℕ} {patch : Patch ℕ} {trigger : Trigger} {focused : Option ℕ}

theorem turn_focused (hfocus : (focused.all fun id => (roleAndName rt.graph id).isSome) = true) :
    ∀ f ∈ identified rt focused, Focusable rt.graph f.1 := by
  intro f hf
  obtain ⟨id, hid, hf⟩ := Option.bind_eq_some_iff.mp hf
  obtain ⟨identity, -, rfl⟩ := Option.map_eq_some_iff.mp hf
  rw [hid, Option.all_some] at hfocus
  obtain ⟨name, hname⟩ := Option.isSome_iff_exists.mp hfocus
  obtain ⟨n, hn, hkind⟩ := Option.bind_eq_some_iff.mp hname
  exact ⟨n, hn, Option.isSome_of_eq_some hkind⟩

theorem turn_held (stages : Stages rt patch focused) (id : ℕ) :
    (∃ f ∈ (turnOf rt patch trigger focused).focused, f.1 = id) ↔
      (turnOf rt patch trigger focused).held.isSome ∧
        (turnOf rt patch trigger focused).views.focusHandles.get id =
          (turnOf rt patch trigger focused).held := by
  change (∃ f ∈ identified rt focused, f.1 = id) ↔
    ((identified rt focused).bind fun f => (viewsOf rt).focusHandles.get f.1).isSome ∧
      (viewsOf rt).focusHandles.get id =
        (identified rt focused).bind fun f => (viewsOf rt).focusHandles.get f.1
  cases hf : identified rt focused with
  | none => simp
  | some f =>
    obtain ⟨hsome, hown⟩ := stages.held f (by rw [hf]; exact List.mem_singleton.mpr rfl)
    constructor
    · rintro ⟨_, ⟨⟩, rfl⟩
      exact ⟨hsome, rfl⟩
    · rintro ⟨-, hid⟩
      obtain ⟨h, hh⟩ := Option.isSome_iff_exists.mp hsome
      have hid : (viewsOf rt).focusHandles.get id = some h := hid.trans hh
      exact ⟨f, rfl, (hown (id, h) ((Enumeration.sorted.listed _ id h).mpr hid) hh.symm).symm⟩

theorem turn_valid (reached : Reachable (accepting ℕ) rt.graph)
    (hrequests : rt.graph.interaction.keyboard.requests = []) (htakes : takes rt patch = true)
    (hfocus : (focused.all fun id => (roleAndName rt.graph id).isSome) = true)
    (stages : Stages rt patch focused) : (turnOf rt patch trigger focused).Valid where
  reached := ⟨rt.graph, rt.graph.interaction, reached, rfl, hrequests⟩
  step := by
    obtain ⟨a, hrun, happly⟩ := given_step htakes
    have hreport : reportOf rt patch = a := by
      rw [reportOf, hrun]
      rfl
    refine ⟨(.sorted, patch), ?_⟩
    change (apply .sorted patch).run rt.graph = .ok (reportOf rt patch) (given rt patch).graph ∧
      applyToGpui (given rt patch).graph (reportOf rt patch) rt.identities = .ok (given rt patch).identities
    rw [hreport]
    exact ⟨hrun, happly⟩
  focused := turn_focused hfocus
  position order horder := by
    have horder : focusOrder rt.graph = .ok order := horder
    rw [turnOf, horder]
    rfl
  issued := by
    have issued := issued_materialize (g := rt.graph) rt.identities issued_empty []
      ((Enumeration.sorted.entries rt.graph.nodes).map Prod.fst)
    refine ⟨issued, fun h hh => ?_⟩
    obtain ⟨f, -, hf⟩ := Option.bind_eq_some_iff.mp hh
    exact issued.controls f.1 h hf
  held := turn_held stages
  drawn id hid := by
    rw [show (turnOf rt patch trigger focused).built ++ (turnOf rt patch trigger focused).rows =
      (reportOf rt patch).stagedIds from List.append_nil _] at hid
    exact ⟨(stages.fresh id hid).1, (stages.fresh id hid).2.1⟩
  nodup := by
    rw [show (turnOf rt patch trigger focused).built ++ (turnOf rt patch trigger focused).rows =
      (reportOf rt patch).stagedIds from List.append_nil _]
    exact stages.nodup
  kept id hid := ⟨(stages.fresh id hid).2.2, fun _ => List.not_mem_nil⟩
  quiet hkind := absurd hkind stages.loud

def twoButtons : Patch ℕ := .mount 1
  [⟨1, .column "", [2, 3]⟩, ⟨2, .button "back" true false false, []⟩,
    ⟨3, .button "next" true false false, []⟩]

def bothAgain : Patch ℕ := .replace 1 4
  [⟨4, .column "", [5, 6]⟩, ⟨5, .button "back" true false false, []⟩,
    ⟨6, .button "next" true false false, []⟩]

def nextOnly : Patch ℕ := .replace 1 4
  [⟨4, .column "", [5]⟩, ⟨5, .button "next" true false false, []⟩]

theorem buttons_valid (htakes : takes (given ⟨.empty, ∅⟩ twoButtons) patch = true)
    (stages : Stages (given ⟨.empty, ∅⟩ twoButtons) patch (some 2)) :
    (turnOf (given ⟨.empty, ∅⟩ twoButtons) patch trigger (some 2)).Valid := by
  have mounted := @given_step ⟨.empty, ∅⟩ twoButtons (by decide +kernel)
  obtain ⟨a, hrun, -⟩ := mounted
  have reached : Reachable (accepting ℕ) (given ⟨.empty, ∅⟩ twoButtons).graph :=
    reachable_step (reachable_initial (accepting ℕ)) ⟨.sorted, a, hrun⟩
  exact turn_valid reached (by decide +kernel) htakes (by decide +kernel) stages

def rebuiltTurn : Turn ℕ := turnOf (given ⟨.empty, ∅⟩ twoButtons) bothAgain .task (some 2)

/-- The focused button is rebuilt under a new id; role and name tell it, and its handle is kept. -/
theorem rebuilt_button_keeps_focus : FocusAgrees rebuiltTurn := by
  have valid : rebuiltTurn.Valid := buttons_valid (by decide +kernel) (by decide +kernel)
  have order : focusOrder rebuiltTurn.after.graph = .ok [5, 6] := by decide +kernel
  have request : answer (takeFocusRequest.run rebuiltTurn.after.graph) = .ok none := by decide +kernel
  have same : rebuiltTurn.before.graph.dialog.isSome = rebuiltTurn.after.graph.dialog.isSome := by
    decide +kernel
  have focused : rebuiltTurn.focused = some (2, [.positional 5 0, .named 1 "back" 0]) := by
    decide +kernel
  have gone : ¬(rebuiltTurn.after.graph.nodes.get 2).isSome := by decide +kernel
  have found : rebuiltTurn.find [.positional 5 0, .named 1 "back" 0] = some 5 := by decide +kernel
  have name : roleAndName rebuiltTurn.before.graph 2 = some (0, "back") := by decide +kernel
  have called : Called rebuiltTurn.after.graph (0, "back") 5 := by
    unfold Called
    decide +kernel
  have given : rebuiltTurn.given (some 5) = some 0 := by decide +kernel
  have shown : rebuiltTurn.shown.focusHandles.get 5 = some 0 := by decide +kernel
  have alone : ∀ entry ∈ Enumeration.sorted.entries rebuiltTurn.shown.focusHandles,
      entry.2 = 0 → entry.1 = 5 := by decide +kernel
  -- the turn itself is not to be evaluated again
  generalize rebuiltTurn = t at *
  have control : t.control [5, 6] [.positional 5 0, .named 1 "back" 0] = some 5 := by
    rw [Turn.control, found]
    rfl
  have lands : t.Lands (some 5) (some 5) := by
    refine (lands_iff valid _ _).mp fun id => ?_
    rw [Turn.focuses, given]
    constructor
    · rintro ⟨⟩
      exact ⟨rfl, shown⟩
    · rintro ⟨-, hid⟩
      exact congrArg some (alone (id, 0) ((Enumeration.sorted.listed _ id 0).mpr hid) rfl).symm
  refine (focus_agrees_iff valid).mpr ⟨[5, 6], none, order, request, ?_⟩
  refine (recognised_stays same).mpr ⟨fun hnone => ?_, fun f hf => ?_⟩
  · rw [focused] at hnone
    cases hnone
  · rw [focused] at hf
    cases hf
    rw [if_neg gone, found, control]
    refine ⟨lands, ?_⟩
    rw [Kept, focused]
    exact (if_neg gone).mpr ⟨(0, "back"), name, .inl ⟨called, rfl⟩⟩

/-- The focused button is gone: the window goes to the one at its place, the runner to none. -/
theorem gone_button_splits : ¬∀ t : Turn ℕ, t.Valid → FocusAgrees t := by
  intro claim
  have valid : (turnOf (given ⟨.empty, ∅⟩ twoButtons) nextOnly (.click 3) (some 2)).Valid :=
    buttons_valid (by decide +kernel) (by decide +kernel)
  have hnone : runnerFocus (turnOf (given ⟨.empty, ∅⟩ twoButtons) nextOnly (.click 3) (some 2)) =
      .ok none := by decide +kernel
  have hnext : windowFocus (turnOf (given ⟨.empty, ∅⟩ twoButtons) nextOnly (.click 3) (some 2)) =
      .ok (some 1) := by decide +kernel
  have hshown : (turnOf (given ⟨.empty, ∅⟩ twoButtons) nextOnly (.click 3)
      (some 2)).shown.focusHandles.get 5 = some 1 := by decide +kernel
  obtain ⟨order, requested, x, handle, -, -, hrunner, hwindow, hfocuses, -⟩ := claim _ valid
  obtain rfl := Except.ok.inj (hwindow.symm.trans hnext)
  obtain rfl := Except.ok.inj (hrunner.symm.trans hnone)
  cases (hfocuses 5).mpr ⟨rfl, hshown⟩

def openButton : Patch ℕ := .mount 1 [⟨1, .column "", [2]⟩, ⟨2, .button "open" true false false, []⟩]

def askBeside : Patch ℕ := .replace 1 4 [⟨4, .column "", [5, 6]⟩,
  ⟨5, .button "open" true false false, []⟩, ⟨6, .dialog "ask", [7]⟩, ⟨7, .text, []⟩]

-- a dialog with nothing to focus: the rebuilt button has the handle in use
example :
    let t := turnOf (given ⟨.empty, ∅⟩ openButton) askBeside (.click 2) (some 2)
    runnerFocus t = .ok none ∧ windowFocus t = .ok (some 0) ∧ t.shown.focusHandles.get 5 = some 0 := by
  decide +kernel

end Rebuilt

end FocusPolicies
