import RocGui.GraphMounting

/-! What the structural pieces of a patch cannot break: anything that rewriting an entry
within its kind keeps. -/
namespace GraphFrames

open Methods KeyedOrder GraphState FragmentValidation GraphPatches GraphMounting

variable {K : Type}

/-- A rewriting of entries that leaves the kind, the number of children and the key. -/
def Plain (f : MountedNode K → MountedNode K) : Prop := ∀ e, (f e).node.kind = e.node.kind ∧
  (f e).node.children.length = e.node.children.length ∧ (f e).segment = e.segment

variable {P : MountedGraph K → Prop}
  (alters : ∀ message id f, Plain f → Preserves P (alter message id f))

section Entries

include alters

theorem frame_parent (id : ℕ) (message : String) (location : Option (ParentLocation K)) :
    Preserves P (setParent id message location) :=
  alters _ _ _ fun _ => ⟨rfl, rfl, rfl⟩

theorem frame_order (container : ℕ) (order : Option (KeyedChildOrder K)) :
    Preserves P (putOrder container order) :=
  alters _ _ _ fun _ => ⟨rfl, rfl, rfl⟩

theorem frame_sizes (oldSize newSize fuel : ℕ) (current : Option ℕ) :
    Preserves P (resizeFrom oldSize newSize fuel current) := by
  induction fuel generalizing current with
  | zero =>
    cases current with
    | none => exact preserves_pure ()
    | some id => exact preserves_throw _
  | succ fuel ih =>
    cases current with
    | none => exact preserves_pure ()
    | some id =>
      exact preserves_bind (alters _ _ _ fun _ => ⟨rfl, rfl, rfl⟩) fun _ =>
        preserves_bind preserves_get fun _ => ih _

theorem frame_resize (oldSize newSize : ℕ) (current : Option ℕ) :
    Preserves P (resizeAncestors oldSize newSize current) :=
  preserves_bind preserves_get fun _ => frame_sizes alters oldSize newSize _ current

theorem frame_container (container oldSize keyedSize : ℕ) :
    Preserves P (resizeContainer container oldSize keyedSize) := by
  unfold resizeContainer
  split
  · exact preserves_pure ()
  · exact preserves_bind (alters _ _ _ fun _ => ⟨rfl, rfl, rfl⟩) fun _ =>
      preserves_bind preserves_get fun _ => frame_resize alters _ _ _

variable [DecidableEq K]

theorem frame_seed (node : Node K) : Preserves P (seedNode node) := by
  unfold seedNode
  split
  · exact preserves_bind (preserves_query _) fun _ => preserves_bind (preserves_expect _ _)
      fun _ => alters _ _ _ fun _ => ⟨rfl, rfl, rfl⟩
  · exact preserves_pure ()

theorem frame_root (location : ParentLocation K) (root : ℕ) :
    Preserves P (attachRoot location root) := by
  unfold attachRoot
  split
  · exact preserves_bind preserves_get fun _ => preserves_bind (preserves_expect _ _) fun _ =>
      preserves_bind (preserves_expect _ _) fun _ => preserves_bind (preserves_expect _ _)
      fun _ => alters _ _ _ fun _ => ⟨rfl, rfl, rfl⟩
  · -- one child in the place of another
    have replaced (parent index : ℕ) : Preserves P (alter "validated parent" parent fun e =>
        { e with node := { e.node with children := e.node.children.set index root } }) :=
      alters _ _ _ fun _ => ⟨rfl, List.length_set, rfl⟩
    refine preserves_bind preserves_get fun _ => preserves_bind (preserves_expect _ _) fun _ => ?_
    split
    · exact preserves_bind (preserves_throw _) fun _ => replaced _ _
    · exact replaced _ _

end Entries

section Keys

variable [DecidableEq K] (segments : ∀ message child, Preserves P (setSegment message child))

include segments

theorem frame_refresh (parent : ℕ) : Preserves P (refreshChildSegments parent) :=
  preserves_bind (preserves_query _) fun _ => preserves_forM (segments _) _

include alters

theorem frame_settle (id : ℕ) : Preserves P (settle id) :=
  preserves_bind preserves_get fun _ => preserves_bind (preserves_expect _ _) fun _ =>
    preserves_bind (preserves_query _) fun _ =>
    preserves_bind (alters _ _ _ fun _ => ⟨rfl, rfl, rfl⟩) fun _ =>
    preserves_bind (preserves_forM (fun _ => preserves_bind (preserves_query _) fun _ =>
      frame_parent alters _ _ _) _) fun _ => frame_refresh segments id

theorem frame_attach (roots : ∀ g root, P g → P { g with root := some root })
    (r : Replacement K) (plan : ReplacementPlan K) (oldSize newSize : ℕ) :
    Preserves P (attach r plan oldSize newSize) := by
  unfold attach
  split
  · refine preserves_bind (frame_root alters _ _) fun _ => ?_
    split
    · exact preserves_bind (frame_refresh segments _) fun _ => frame_resize alters _ _ _
    · exact frame_resize alters _ _ _
  · exact preserves_modify fun g => roots g r.root

end Keys

end GraphFrames
