import RocGui.NativeOrders
import RocGui.RuntimeIdentities

/-! The views of the window: which entity shows a node, which views a patch hands on to the nodes
it stages, and the focus handles that go with them. -/
namespace NativeViews

open FiniteMaps Methods KeyedOrder GraphState GraphPatches FocusSearches NativeOrders

structure NodeView (K : Type) where
  node : Node K
  identity : ElementIdentity
  children : List ℕ
  keyedChildren : Option (KeyedViewOrder K ℕ)
  focusHandle : Option ℕ

/-- Entities hold the views, in and out of virtual lists. The editor of a text input stands for
its focus handle. -/
structure Window (K : Type) where
  entities : FiniteMap ℕ (NodeView K)
  views : FiniteMap ℕ ℕ
  recyclable : FiniteMap ElementIdentity ℕ
  focusHandles : FiniteMap ℕ ℕ
  editors : FiniteMap ElementIdentity ℕ
  nextEntity : ℕ
  nextHandle : ℕ

variable {K : Type}

def NodeView.nativeChildren [DecidableEq K] (view : NodeView K) : Except (Failure Empty) (List ℕ) :=
  match view.keyedChildren with
  | some order => shownViews order
  | none => .ok view.children

namespace Window

def empty : Window K := ⟨∅, ∅, ∅, ∅, ∅, 0, 0⟩

def view (w : Window K) (id : ℕ) : Option (NodeView K) := (w.views.get id).bind w.entities.get

/-- The views of retired nodes, by identity; a later one of the same identity wins. -/
def offered (w : Window K) (doomed : List ℕ) : FiniteMap ElementIdentity ℕ :=
  doomed.foldl (fun offered id =>
    match w.views.get id, w.view id with
    | some entity, some view => offered.set view.identity entity
    | _, _ => offered) ∅

def offer (w : Window K) (doomed : List ℕ) : Window K := { w with recyclable := w.offered doomed }

/-- The view that a node claims back. An empty identity is none. -/
def claimed (w : Window K) (identity : ElementIdentity) (node : Node K) : Option ℕ :=
  if identity = [] then none
  else (w.recyclable.get identity).filter fun entity =>
    (w.entities.get entity).any fun view => view.node.kind.tag = node.kind.tag

/-- `editor_for_node`: the editor kept under an identity, or a new one. -/
def editorFor (w : Window K) (identity : ElementIdentity) : ℕ × Window K :=
  match w.editors.get identity with
  | some handle => (handle, w)
  | none => (w.nextHandle, { w with
      editors := w.editors.set identity w.nextHandle
      nextHandle := w.nextHandle + 1 })

/-- The focus handle of a view: that of its editor, that of the view it claims, or a new one. -/
def handleFor (w : Window K) (identity : ElementIdentity) (node : Node K) : Option ℕ × Window K :=
  match node.kind with
  | .textInput .. => (some (w.editorFor identity).1, (w.editorFor identity).2)
  | kind =>
    if (focusIdentity kind).isSome then
      match (w.claimed identity node).bind fun entity => (w.entities.get entity).bind (·.focusHandle) with
      | some handle => (some handle, w)
      | none => (some w.nextHandle, { w with nextHandle := w.nextHandle + 1 })
    else (none, w)

def claimView (w : Window K) (identity : ElementIdentity) (node : Node K) : ℕ × Window K :=
  let (focusHandle, next) := w.handleFor identity node
  let recyclable := if identity = [] then w.recyclable else w.recyclable.remove identity
  let view : NodeView K := ⟨node, identity, [], none, focusHandle⟩
  match w.claimed identity node with
  | some entity => (entity, { next with recyclable, entities := w.entities.set entity view })
  | none => (w.nextEntity, { next with
      recyclable
      entities := w.entities.set w.nextEntity view
      nextEntity := w.nextEntity + 1 })

/-- `self.identities.get(&node.id).cloned().unwrap_or_default()`. -/
def identityOf (identities : FiniteMap ℕ ElementIdentity) (id : ℕ) : ElementIdentity :=
  (identities.get id).getD []

/-- A staged node is given its view. The children of the new views are filled in once all have
theirs, which touches no other view. -/
def enter (w : Window K) (g : MountedGraph K) (identities : FiniteMap ℕ ElementIdentity) (id : ℕ) :
    Window K :=
  match g.node id with
  | none => w
  | some node =>
    let (entity, w) := w.claimView (identityOf identities id) node
    { w with
      views := w.views.set id entity
      focusHandles := match (w.entities.get entity).bind (·.focusHandle) with
        | some handle => w.focusHandles.set id handle
        | none => w.focusHandles }

/-- The retired views are offered, and those of `built` among the staged nodes are drawn at once:
all but the rows of virtual lists that are not in view. -/
def materialize (w : Window K) (g : MountedGraph K) (identities : FiniteMap ℕ ElementIdentity)
    (doomed built : List ℕ) : Window K :=
  built.foldl (fun w id => w.enter g identities id) (w.offer doomed)

/-- The view of the parent that a patch reports takes the view of the new root at the reported
position. Within a row that is not drawn there is nothing to do. -/
def installRoot (w : Window K) (a : GraphApply K) : Except (Failure Empty) (Window K) :=
  match a.root, a.parent with
  | some root, some (parent, position) =>
    match w.views.get root, w.views.get parent, w.view parent with
    | some newRoot, some entity, some view =>
      if position < view.node.children.length ∧ position < view.children.length then
        .ok { w with entities := w.entities.set entity { view with
          node := { view.node with children := view.node.children.set position root }
          children := view.children.set position newRoot } }
      else .error (.panic "index out of bounds")
    | _, _, _ => .ok w
  | _, _ => .ok w

def retire (w : Window K) (removed : List ℕ) : Window K := { w with
  views := removed.foldl FiniteMap.remove w.views
  focusHandles := removed.foldl FiniteMap.remove w.focusHandles }

/-- The editors of retired text inputs go, unless a staged input has the identity. -/
def dropEditors (w : Window K) (dropped : List ElementIdentity) : Window K := { w with
  editors := dropped.foldl FiniteMap.remove w.editors }

end Window

theorem get_removed {I : Type} [DecidableEq I] (removed : List I) (m : FiniteMap I ℕ) (x : I) :
    (removed.foldl FiniteMap.remove m).get x = if x ∈ removed then none else m.get x := by
  induction removed generalizing m with
  | nil => simp
  | cons id removed ih =>
    rw [List.foldl_cons, ih, FiniteMap.get_remove]
    by_cases hx : x ∈ removed <;> by_cases hid : x = id <;> simp [hx, hid]

section Claims

variable {w : Window K} {identity : ElementIdentity} {node : Node K} {e id : ℕ}

theorem handle_for (w : Window K) (identity : ElementIdentity) (node : Node K) :
    ∃ handle editors nextHandle,
      w.handleFor identity node = (handle, { w with editors, nextHandle }) := by
  unfold Window.handleFor
  split
  · unfold Window.editorFor
    cases w.editors.get identity with
    | some handle => exact ⟨_, w.editors, w.nextHandle, rfl⟩
    | none => exact ⟨_, _, _, rfl⟩
  · split
    · split
      · exact ⟨_, w.editors, w.nextHandle, rfl⟩
      · exact ⟨_, w.editors, _, rfl⟩
    · exact ⟨_, w.editors, w.nextHandle, rfl⟩

theorem claim_view (w : Window K) (identity : ElementIdentity) (node : Node K) :
    ∃ editors nextHandle view, w.claimView identity node = ((w.claimed identity node).getD w.nextEntity,
      { w with
        entities := w.entities.set ((w.claimed identity node).getD w.nextEntity) view
        recyclable := if identity = [] then w.recyclable else w.recyclable.remove identity
        nextEntity := if (w.claimed identity node).isSome then w.nextEntity else w.nextEntity + 1
        editors, nextHandle }) := by
  obtain ⟨handle, editors, nextHandle, hhandle⟩ := handle_for w identity node
  refine ⟨editors, nextHandle, ⟨node, identity, [], none, handle⟩, ?_⟩
  rw [Window.claimView, hhandle]
  cases w.claimed identity node with
  | some entity => rfl
  | none => rfl

theorem claimed_iff : w.claimed identity node = some e ↔ identity ≠ [] ∧
    w.recyclable.get identity = some e ∧
      ∃ view, w.entities.get e = some view ∧ view.node.kind.tag = node.kind.tag := by
  unfold Window.claimed
  split
  · simp [*]
  · simp [*, Option.filter_eq_some_iff, Option.any_eq_true]

structure Entered (w w' : Window K) (identity : ElementIdentity) (node : Node K) (id : ℕ) : Prop where
  views : w'.views = w.views.set id ((w.claimed identity node).getD w.nextEntity)
  entities : ∀ x, x ≠ (w.claimed identity node).getD w.nextEntity →
    w'.entities.get x = w.entities.get x
  recyclable : w'.recyclable =
    if identity = [] then w.recyclable else w.recyclable.remove identity
  next : w.nextEntity ≤ w'.nextEntity

theorem enter_entered {g : MountedGraph K} (identities : FiniteMap ℕ ElementIdentity)
    (hnode : g.node id = some node) :
    Entered w (w.enter g identities id) (Window.identityOf identities id) node id := by
  obtain ⟨editors, nextHandle, view, hclaim⟩ := claim_view w (Window.identityOf identities id) node
  unfold Window.enter
  rw [hnode]
  dsimp only
  rw [hclaim]
  refine ⟨rfl, fun x hx => FiniteMap.get_set_ne _ _ hx, rfl, ?_⟩
  dsimp only
  split <;> omega

theorem enter_offered {g : MountedGraph K} (identities : FiniteMap ℕ ElementIdentity)
    (hnode : g.node id = some node) (i : ElementIdentity) : (w.enter g identities id).recyclable.get i =
      if i ≠ [] ∧ i = Window.identityOf identities id then none else w.recyclable.get i := by
  rw [(enter_entered (w := w) identities hnode).recyclable]
  split
  · rename_i hnil
    rw [if_neg fun h => h.1 (h.2.trans hnil)]
  · rename_i hne
    rw [FiniteMap.get_remove]
    by_cases hi : i = Window.identityOf identities id
    · rw [if_pos hi, if_pos ⟨hi ▸ hne, hi⟩]
    · rw [if_neg hi, if_neg fun h => hi h.2]

theorem enter_handle {g : MountedGraph K} (identities : FiniteMap ℕ ElementIdentity)
    (hnode : g.node id = some node) :
    (w.enter g identities id).focusHandles =
        (w.handleFor (Window.identityOf identities id) node).1.elim w.focusHandles
          (w.focusHandles.set id) ∧
      (w.enter g identities id).editors =
        (w.handleFor (Window.identityOf identities id) node).2.editors ∧
      (w.enter g identities id).nextHandle =
        (w.handleFor (Window.identityOf identities id) node).2.nextHandle := by
  obtain ⟨handle, editors, nextHandle, hhandle⟩ := handle_for w (Window.identityOf identities id) node
  unfold Window.enter Window.claimView
  rw [hnode]
  dsimp only
  rw [hhandle]
  cases w.claimed (Window.identityOf identities id) node with
  | some entity =>
    dsimp only
    rw [FiniteMap.get_set_self]
    cases handle with
    | some handle => exact ⟨rfl, rfl, rfl⟩
    | none => exact ⟨rfl, rfl, rfl⟩
  | none =>
    dsimp only
    rw [FiniteMap.get_set_self]
    cases handle with
    | some handle => exact ⟨rfl, rfl, rfl⟩
    | none => exact ⟨rfl, rfl, rfl⟩

end Claims

section Drawing

variable {w : Window K} {g : MountedGraph K} {identities : FiniteMap ℕ ElementIdentity}
  {doomed built : List ℕ} {id e : ℕ}

structure Drawn (w w' : Window K) (identities : FiniteMap ℕ ElementIdentity) (built : List ℕ) :
    Prop where
  views : ∀ x, x ∉ built → w'.views.get x = w.views.get x
  entities : ∀ x < w.nextEntity,
    (∀ id ∈ built, w.recyclable.get (Window.identityOf identities id) ≠ some x) →
      w'.entities.get x = w.entities.get x
  offered : ∀ i, w'.recyclable.get i =
    if i ≠ [] ∧ i ∈ built.map (Window.identityOf identities) then none else w.recyclable.get i
  next : w.nextEntity ≤ w'.nextEntity

theorem built_drawn (w : Window K) (identities : FiniteMap ℕ ElementIdentity) (built : List ℕ)
    (known : ∀ id ∈ built, (g.node id).isSome) :
    Drawn w (built.foldl (fun w id => w.enter g identities id) w) identities built := by
  induction built generalizing w with
  | nil => exact ⟨fun _ _ => rfl, fun _ _ _ => rfl, fun _ => by simp, le_rfl⟩
  | cons id built ih =>
    rw [List.foldl_cons]
    have rest := ih (w.enter g identities id) fun x hx => known x (List.mem_cons_of_mem _ hx)
    obtain ⟨node, hnode⟩ := Option.isSome_iff_exists.mp (known id List.mem_cons_self)
    have first := enter_entered (w := w) identities hnode
    have offered := enter_offered (w := w) identities hnode
    refine ⟨fun x hx => ?_, fun x hx hfree => ?_, fun i => ?_, first.next.trans rest.next⟩
    · rw [List.mem_cons, not_or] at hx
      rw [rest.views x hx.2, first.views, FiniteMap.get_set_ne _ _ hx.1]
    · rw [rest.entities x (hx.trans_le first.next)]
      · refine first.entities x ?_
        rintro rfl
        cases hclaimed : w.claimed (Window.identityOf identities id) node with
        | none =>
          rw [hclaimed] at hx
          exact lt_irrefl _ hx
        | some entity =>
          rw [hclaimed] at hfree
          exact hfree id List.mem_cons_self (claimed_iff.mp hclaimed).2.1
      · intro id' hid'
        rw [offered]
        split
        · exact nofun
        · exact hfree id' (List.mem_cons_of_mem _ hid')
    · rw [rest.offered, offered]
      simp only [List.map_cons, List.mem_cons]
      by_cases hlater : i ∈ built.map (Window.identityOf identities)
      · by_cases hne : i = [] <;> simp [hlater, hne]
      · simp [hlater]

theorem built_view (w : Window K) (identities : FiniteMap ℕ ElementIdentity) (before : List ℕ)
    {after : List ℕ} {root : ℕ} {node : Node K} (hnode : g.node root = some node)
    (hafter : root ∉ after) (known : ∀ id ∈ after, (g.node id).isSome) :
    ∃ e, e = ((before.foldl (fun w id => w.enter g identities id) w).claimed
        (Window.identityOf identities root) node).getD
          (before.foldl (fun w id => w.enter g identities id) w).nextEntity ∧
      ((before ++ root :: after).foldl (fun w id => w.enter g identities id) w).views.get root =
        some e := by
  refine ⟨_, rfl, ?_⟩
  rw [List.foldl_append, List.foldl_cons, (built_drawn _ identities after known).views root hafter]
  rw [(enter_entered _ hnode).views, FiniteMap.get_set_self]

/-- Every offered view is there, under its own identity. -/
def Offering (w : Window K) : Prop := ∀ i e, w.recyclable.get i = some e →
  e < w.nextEntity ∧ ∃ view, w.entities.get e = some view ∧ view.identity = i

/-- A view is claimed by the first new node of its identity, if that is of its kind. -/
theorem claims_iff {before : List ℕ} {i : ElementIdentity} {node : Node K} (offering : Offering w)
    (known : ∀ id ∈ before, (g.node id).isSome) (he : e < w.nextEntity) :
    (((before.foldl (fun w id => w.enter g identities id) w).claimed i node).getD
      (before.foldl (fun w id => w.enter g identities id) w).nextEntity) = e ↔
      i ≠ [] ∧ i ∉ before.map (Window.identityOf identities) ∧ w.recyclable.get i = some e ∧
        ∃ view, w.entities.get e = some view ∧ view.node.kind.tag = node.kind.tag := by
  have drawn := built_drawn w identities before known
  have kept (hi : i ∉ before.map (Window.identityOf identities)) (hget : w.recyclable.get i = some e) :
      (before.foldl (fun w id => w.enter g identities id) w).entities.get e = w.entities.get e := by
    refine drawn.entities e he fun id hid hother => hi (List.mem_map.mpr ⟨id, hid, ?_⟩)
    obtain ⟨-, view, hview, hidentity⟩ := offering i e hget
    obtain ⟨-, view', hview', hidentity'⟩ := offering _ e hother
    obtain rfl := Option.some.inj (hview.symm.trans hview')
    exact hidentity'.symm.trans hidentity
  constructor
  · intro heq
    cases hclaimed : (before.foldl (fun w id => w.enter g identities id) w).claimed i node with
    | none =>
      rw [hclaimed, Option.getD_none] at heq
      exact absurd (heq ▸ drawn.next) (not_le.mpr he)
    | some entity =>
      rw [hclaimed, Option.getD_some] at heq
      subst heq
      obtain ⟨hne, hget, hview⟩ := claimed_iff.mp hclaimed
      rw [drawn.offered] at hget
      split at hget
      · cases hget
      · rename_i hfree
        have hi : i ∉ before.map (Window.identityOf identities) := fun h => hfree ⟨hne, h⟩
        exact ⟨hne, hi, hget, kept hi hget ▸ hview⟩
  · rintro ⟨hne, hi, hget, hview⟩
    rw [claimed_iff.mpr ⟨hne, ?_, (kept hi hget).symm ▸ hview⟩, Option.getD_some]
    rw [drawn.offered, if_neg fun h => hi h.2, hget]

theorem offered_from {i : ElementIdentity} (h : (w.offered doomed).get i = some e) :
    ∃ id ∈ doomed, w.views.get id = some e ∧
      ∃ view, w.entities.get e = some view ∧ view.identity = i := by
  unfold Window.offered at h
  revert h
  induction doomed using List.reverseRecOn with
  | nil => exact nofun
  | append_singleton doomed id ih =>
    rw [List.foldl_append, List.foldl_cons, List.foldl_nil]
    intro h
    have earlier (h : (w.offered doomed).get i = some e) : ∃ id' ∈ doomed ++ [id],
        w.views.get id' = some e ∧ ∃ view, w.entities.get e = some view ∧ view.identity = i := by
      obtain ⟨id', hid', found⟩ := ih h
      exact ⟨id', List.mem_append_left [id] hid', found⟩
    split at h
    · rename_i entity view hentity hview
      rw [FiniteMap.get_set] at h
      split at h
      · rename_i hi
        obtain rfl := Option.some.inj h
        rw [Window.view, hentity, Option.bind_some] at hview
        exact ⟨id, by simp, hentity, view, hview, hi.symm⟩
      · exact earlier h
    · exact earlier h

theorem offers (held : ∀ id e, w.views.get id = some e → e < w.nextEntity) (doomed : List ℕ) :
    Offering (w.offer doomed) := by
  intro i e h
  obtain ⟨id, -, hviews, found⟩ := offered_from h
  exact ⟨held id e hviews, found⟩

end Drawing

end NativeViews
