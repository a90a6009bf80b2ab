import RocGui.NativeViews

/-! Whose focus handle a control has, told by identities: the control it is rebuilt from hands its
own on, and an editor hands on that of its text input. -/
namespace FocusHandles

open FiniteMaps Methods KeyedOrder GraphState GraphPatches FocusSearches NativeOrders NativeViews

/-- A handle that the window had, that of the editor made for an identity, or one made for a
control. -/
inductive Source where
  | held (handle : ℕ)
  | editor (identity : ElementIdentity)
  | own (id : ℕ)
  deriving DecidableEq, Repr

def earlier (ids : List ℕ) (id : ℕ) : List ℕ := ids.takeWhile (· ≠ id)

section Sources

variable {K : Type} (g : MountedGraph K) (identities : FiniteMap ℕ ElementIdentity) (w : Window K)
  (editors : ElementIdentity → Option ℕ)

/-- The handle of the view that a node claims: the first new node of an identity may. -/
def claimedHandle (before : List ℕ) (identity : ElementIdentity) (node : Node K) : Option ℕ :=
  if identity ∈ before.map (Window.identityOf identities) then none
  else (w.claimed identity node).bind fun entity => (w.entities.get entity).bind (·.focusHandle)

def source (before : List ℕ) (id : ℕ) : Option Source :=
  (g.node id).bind fun node =>
    match node.kind with
    | .textInput .. => some ((editors (Window.identityOf identities id)).elim
        (.editor (Window.identityOf identities id)) .held)
    | kind =>
      if (focusIdentity kind).isSome then some ((claimedHandle identities w before
        (Window.identityOf identities id) node).elim (.own id) .held)
      else none

/-- The handle of a control, when those of `ids` have been drawn anew. -/
def sourceIn (base : ℕ → Option ℕ) (ids : List ℕ) (id : ℕ) : Option Source :=
  if id ∈ ids then source g identities w editors (earlier ids id) id else (base id).map .held

/-- The handles of the editors when those of `dropped` are gone. -/
abbrev editorsLeft (dropped : List ElementIdentity) (i : ElementIdentity) : Option ℕ :=
  if i ∈ dropped then none else editors i

def takesEditor (id : ℕ) : Bool :=
  (g.node id).any fun node => match node.kind with
    | .textInput .. => true
    | _ => false

/-- The handles of a window in which the nodes of `drawn` have been given their views: which
number stands for which handle, and what is still to be claimed. -/
structure Sourced (base : ℕ → Option ℕ) (drawn : List ℕ) (w' : Window K)
    (value : Source → Option ℕ) : Prop where
  held : ∀ h < w.nextHandle, value (.held h) = some h
  issued : ∀ s h, value s = some h → h < w'.nextHandle
  injective : ∀ s s' h, value s = some h → value s' = some h → s = s'
  owns : ∀ id, (value (.own id)).isSome → id ∈ drawn
  made : ∀ i, (value (.editor i)).isSome → ∃ id ∈ drawn, i = Window.identityOf identities id ∧
    source g identities w editors (earlier drawn id) id = some (.editor i)
  kept : ∀ i, w'.editors.get i = (editors i).or (value (.editor i))
  controls : ∀ id ∈ drawn, Option.Rel (fun s h => value s = some h)
    (source g identities w editors (earlier drawn id) id) (w'.focusHandles.get id)
  others : ∀ id, id ∉ drawn → w'.focusHandles.get id = base id
  offered : ∀ i, w'.recyclable.get i =
    if i ≠ [] ∧ i ∈ drawn.map (Window.identityOf identities) then none else w.recyclable.get i
  entities : ∀ i e, w'.recyclable.get i = some e → w'.entities.get e = w.entities.get e
  next : w.nextEntity ≤ w'.nextEntity

/-- No handle of a window is still to be issued, and no entity of its views. -/
structure Issued : Prop where
  entities : ∀ id e, w.views.get id = some e → e < w.nextEntity
  views : ∀ e view h, w.entities.get e = some view → view.focusHandle = some h → h < w.nextHandle
  editors : ∀ i h, w.editors.get i = some h → h < w.nextHandle
  controls : ∀ id h, w.focusHandles.get id = some h → h < w.nextHandle

end Sources

section Issuing

variable {K : Type} {g : MountedGraph K} {identities : FiniteMap ℕ ElementIdentity} {w : Window K}

theorem issued_empty : Issued (Window.empty (K := K)) :=
  ⟨nofun, nofun, nofun, nofun⟩

theorem handle_issued (h : Issued w) (identity : ElementIdentity) (node : Node K) :
    w.nextHandle ≤ (w.handleFor identity node).2.nextHandle ∧
      (∀ x, (w.handleFor identity node).1 = some x →
        x < (w.handleFor identity node).2.nextHandle) ∧
      ∀ i x, (w.handleFor identity node).2.editors.get i = some x →
        x < (w.handleFor identity node).2.nextHandle := by
  unfold Window.handleFor
  split
  · unfold Window.editorFor
    cases hget : w.editors.get identity with
    | some handle =>
      refine ⟨le_rfl, fun x hx => ?_, h.editors⟩
      exact Option.some.inj hx ▸ h.editors identity handle hget
    | none =>
      refine ⟨Nat.le_succ _, fun x hx => ?_, fun i x hi => ?_⟩
      · exact Option.some.inj hx ▸ Nat.lt_succ_self _
      · dsimp only at hi ⊢
        rw [FiniteMap.get_set] at hi
        split at hi
        · exact Option.some.inj hi ▸ Nat.lt_succ_self _
        · exact (h.editors i x hi).trans (Nat.lt_succ_self _)
  · split
    · split
      · rename_i handle hclaimed
        refine ⟨le_rfl, fun x hx => ?_, h.editors⟩
        obtain ⟨e, -, hview⟩ := Option.bind_eq_some_iff.mp hclaimed
        obtain ⟨view, hview, hhandle⟩ := Option.bind_eq_some_iff.mp hview
        exact Option.some.inj hx ▸ h.views e view handle hview hhandle
      · refine ⟨Nat.le_succ _, fun x hx => ?_, fun i x hi => ?_⟩
        · exact Option.some.inj hx ▸ Nat.lt_succ_self _
        · exact (h.editors i x hi).trans (Nat.lt_succ_self _)
    · exact ⟨le_rfl, nofun, h.editors⟩

theorem issued_enter (identities : FiniteMap ℕ ElementIdentity) (h : Issued w)
    (offered : ∀ i e, w.recyclable.get i = some e → e < w.nextEntity)
    (id : ℕ) : Issued (w.enter g identities id) ∧
      ∀ i e, (w.enter g identities id).recyclable.get i = some e →
        e < (w.enter g identities id).nextEntity := by
  cases hnode : g.node id with
  | none =>
    have hsame : w.enter g identities id = w := by
      unfold Window.enter
      rw [hnode]
    rw [hsame]
    exact ⟨h, offered⟩
  | some node =>
    obtain ⟨hnext, hhandle, heditors⟩ := handle_issued h (Window.identityOf identities id) node
    obtain ⟨handle, editors, nextHandle, hfor⟩ := handle_for w (Window.identityOf identities id) node
    rw [hfor] at hnext hhandle heditors
    obtain ⟨e, nextEntity, hclaim, he, hle⟩ : ∃ e nextEntity,
        w.claimView (Window.identityOf identities id) node = (e, { w with
          entities := w.entities.set e ⟨node, Window.identityOf identities id, [], none, handle⟩
          recyclable := if Window.identityOf identities id = [] then w.recyclable
            else w.recyclable.remove (Window.identityOf identities id)
          editors, nextHandle, nextEntity }) ∧ e < nextEntity ∧ w.nextEntity ≤ nextEntity := by
      unfold Window.claimView
      rw [hfor]
      cases hclaimed : w.claimed (Window.identityOf identities id) node with
      | some e => exact ⟨e, w.nextEntity, rfl, offered _ e (claimed_iff.mp hclaimed).2.1, le_rfl⟩
      | none => exact ⟨w.nextEntity, w.nextEntity + 1, rfl, Nat.lt_succ_self _, Nat.le_succ _⟩
    have hcontrols : ∀ x y, (handle.elim w.focusHandles (w.focusHandles.set id)).get x = some y →
        y < nextHandle := by
      intro x y hxy
      cases handle with
      | none => exact (h.controls x y hxy).trans_le hnext
      | some handle =>
        rw [Option.elim_some, FiniteMap.get_set] at hxy
        split at hxy
        · exact Option.some.inj hxy ▸ hhandle handle rfl
        · exact (h.controls x y hxy).trans_le hnext
    obtain ⟨hfocus, -, -⟩ := enter_handle (w := w) identities hnode
    rw [hfor] at hfocus
    rw [← hfocus] at hcontrols
    unfold Window.enter at hcontrols ⊢
    rw [hnode] at hcontrols ⊢
    dsimp only at hcontrols ⊢
    rw [hclaim] at hcontrols ⊢
    refine ⟨⟨fun x y hxy => ?_, fun x view y hx hy => ?_, heditors, hcontrols⟩, fun i y hi => ?_⟩
    · dsimp only at hxy
      rw [FiniteMap.get_set] at hxy
      split at hxy
      · exact Option.some.inj hxy ▸ he
      · exact (h.entities x y hxy).trans_le hle
    · dsimp only at hx
      rw [FiniteMap.get_set] at hx
      split at hx
      · obtain rfl := Option.some.inj hx
        exact hhandle y hy
      · exact (h.views x view y hx hy).trans_le hnext
    · have hget : w.recyclable.get i = some y := by
        dsimp only at hi
        split at hi
        · exact hi
        · rw [FiniteMap.get_remove] at hi
          split at hi
          · cases hi
          · exact hi
      exact (offered i y hget).trans_le hle

theorem issued_materialize (identities : FiniteMap ℕ ElementIdentity) (h : Issued w) (doomed built : List ℕ) :
    Issued (w.materialize g identities doomed built) := by
  have start : Issued (w.offer doomed) := ⟨h.entities, h.views, h.editors, h.controls⟩
  have offered : ∀ i e, (w.offer doomed).recyclable.get i = some e → e < (w.offer doomed).nextEntity :=
    fun i e hi => (offers h.entities doomed i e hi).1
  unfold Window.materialize
  generalize w.offer doomed = w' at start offered
  induction built generalizing w' with
  | nil => exact start
  | cons id built ih =>
    obtain ⟨hid, hoffered⟩ := issued_enter (g := g) identities start offered id
    exact ih _ hid hoffered

end Issuing

section Prefixes

variable {ids more : List ℕ} {id : ℕ}

theorem earlier_append (h : id ∈ ids) : earlier (ids ++ more) id = earlier ids id := by
  induction ids with
  | nil => cases h
  | cons x ids ih =>
    unfold earlier at ih ⊢
    rw [List.cons_append, List.takeWhile_cons, List.takeWhile_cons]
    by_cases hx : x = id
    · simp [hx]
    · rw [ih ((List.mem_cons.mp h).resolve_left fun heq => hx heq.symm)]

theorem earlier_self (h : id ∉ ids) : earlier (ids ++ id :: more) id = ids := by
  induction ids with
  | nil => simp [earlier]
  | cons x ids ih =>
    rw [List.mem_cons, not_or] at h
    unfold earlier at ih ⊢
    rw [List.cons_append, List.takeWhile_cons, ih h.2]
    simp [Ne.symm h.1]

end Prefixes

section Entering

variable {K : Type} {g : MountedGraph K} {identities : FiniteMap ℕ ElementIdentity} {w w' : Window K}
  {editors : ElementIdentity → Option ℕ} {base : ℕ → Option ℕ} {drawn more : List ℕ}
  {value : Source → Option ℕ} {id : ℕ} {node : Node K}

theorem claimed_handle (s : Sourced g identities w editors base drawn w' value)
    (identity : ElementIdentity) (node : Node K) :
    ((w'.claimed identity node).bind fun e => (w'.entities.get e).bind (·.focusHandle)) =
      claimedHandle identities w drawn identity node := by
  unfold claimedHandle Window.claimed
  rw [s.offered]
  by_cases hnil : identity = []
  · simp [hnil]
  · by_cases hearlier : identity ∈ drawn.map (Window.identityOf identities)
    · rw [if_neg hnil, if_pos ⟨hnil, hearlier⟩, if_pos hearlier]
      rfl
    · rw [if_neg hnil, if_neg fun h => hearlier h.2, if_neg hearlier, if_neg hnil]
      cases hget : w.recyclable.get identity with
      | none => rfl
      | some e =>
        have hsame := s.entities identity e (by rw [s.offered, if_neg fun h => hearlier h.2, hget])
        simp only [Option.filter_some, hsame]
        split
        · rw [Option.bind_some, Option.bind_some, hsame]
        · rfl

/-- A handle is handed on, or one is made that stands for nothing yet. -/
def Extends (value value' : Source → Option ℕ) : Prop := ∀ s h, value s = some h → value' s = some h

theorem extends_update {s : Source} {h : ℕ} (hnone : value s = none) :
    Extends value (Function.update value s (some h)) := by
  intro s' h' hvalue
  rw [Function.update_apply, if_neg]
  · exact hvalue
  · rintro rfl
    rw [hnone] at hvalue
    cases hvalue

theorem rel_extends {value' : Source → Option ℕ} (more : Extends value value') {a : Option Source}
    {b : Option ℕ} (h : Option.Rel (fun s h => value s = some h) a b) :
    Option.Rel (fun s h => value' s = some h) a b := by
  cases h with
  | some hvalue => exact .some (more _ _ hvalue)
  | none => exact .none

/-- What choosing the handle of a node does to what the handles stand for. -/
structure Chosen (g : MountedGraph K) (identities : FiniteMap ℕ ElementIdentity) (w : Window K)
    (editors : ElementIdentity → Option ℕ) (drawn : List ℕ) (id : ℕ) (value value' : Source → Option ℕ)
    (handle : Option ℕ) (next : Window K) : Prop where
  more : Extends value value'
  handle : Option.Rel (fun s h => value' s = some h) (source g identities w editors drawn id) handle
  issued : ∀ s h, value' s = some h → h < next.nextHandle
  injective : ∀ s s' h, value' s = some h → value' s' = some h → s = s'
  owns : ∀ x, (value' (.own x)).isSome → (value (.own x)).isSome ∨ x = id
  made : ∀ i, (value' (.editor i)).isSome → (value (.editor i)).isSome ∨
    i = Window.identityOf identities id ∧ source g identities w editors drawn id = some (.editor i)
  kept : ∀ i, next.editors.get i = (editors i).or (value' (.editor i))

theorem chosen_kept (s : Sourced g identities w editors base drawn w' value) {handle : Option ℕ}
    (hhandle : Option.Rel (fun s h => value s = some h) (source g identities w editors drawn id) handle) :
    Chosen g identities w editors drawn id value value handle w' where
  more _ _ h := h
  handle := hhandle
  issued := s.issued
  injective := s.injective
  owns _ h := .inl h
  made _ h := .inl h
  kept := s.kept

theorem update_injective (s : Sourced g identities w editors base drawn w' value) (new : Source) :
    (∀ s h, Function.update value new (some w'.nextHandle) s = some h → h < w'.nextHandle + 1) ∧
      ∀ s s' h, Function.update value new (some w'.nextHandle) s = some h →
        Function.update value new (some w'.nextHandle) s' = some h → s = s' := by
  have here {x : Source} {h : ℕ} (hx : Function.update value new (some w'.nextHandle) x = some h) :
      x = new ∧ h = w'.nextHandle ∨ value x = some h ∧ h < w'.nextHandle := by
    rw [Function.update_apply] at hx
    split at hx
    · rename_i heq
      exact .inl ⟨heq, (Option.some.inj hx).symm⟩
    · exact .inr ⟨hx, s.issued _ _ hx⟩
  refine ⟨fun x h hx => ?_, fun x x' h hx hx' => ?_⟩
  · rcases here hx with ⟨-, rfl⟩ | ⟨-, hlt⟩ <;> omega
  · rcases here hx with ⟨rfl, rfl⟩ | ⟨hvalue, hlt⟩
    · rcases here hx' with ⟨rfl, -⟩ | ⟨-, hlt⟩
      · rfl
      · exact absurd hlt (lt_irrefl _)
    · rcases here hx' with ⟨-, rfl⟩ | ⟨hvalue', -⟩
      · exact absurd hlt (lt_irrefl _)
      · exact s.injective _ _ _ hvalue hvalue'

theorem editor_chosen (s : Sourced g identities w editors base drawn w' value) {i : ElementIdentity}
    (hi : i = Window.identityOf identities id)
    (hsource : source g identities w editors drawn id = some ((editors i).elim (.editor i) .held))
    (heditors : ∀ i h, editors i = some h → h < w.nextHandle) : ∃ value',
      Chosen g identities w editors drawn id value value' (some (w'.editorFor i).1) (w'.editorFor i).2 := by
  unfold Window.editorFor
  have hkept := s.kept i
  cases hold : editors i with
  | some h =>
    rw [hold, Option.elim_some] at hsource
    rw [hkept, hold, Option.some_or]
    exact ⟨value, chosen_kept s (hsource ▸ .some (s.held h (heditors i h hold)))⟩
  | none =>
    rw [hold, Option.elim_none] at hsource
    rw [hkept, hold, Option.none_or]
    cases hmade : value (.editor i) with
    | some h => exact ⟨value, chosen_kept s (hsource ▸ .some hmade)⟩
    | none =>
      obtain ⟨issued, injective⟩ := update_injective s (.editor i)
      refine ⟨Function.update value (.editor i) (some w'.nextHandle), extends_update hmade,
        hsource ▸ .some (Function.update_self ..), issued, injective, fun x hx => ?_, fun x hx => ?_,
        fun x => ?_⟩
      · rw [Function.update_of_ne (by simp)] at hx
        exact .inl hx
      · by_cases hxi : x = i
        · exact .inr ⟨hxi.trans hi, hxi ▸ hsource⟩
        · rw [Function.update_of_ne (by simpa using hxi)] at hx
          exact .inl hx
      · by_cases hxi : x = i
        · subst hxi
          rw [FiniteMap.get_set_self, hold, Option.none_or, Function.update_self]
        · rw [FiniteMap.get_set_ne _ _ hxi, Function.update_of_ne (by simpa using hxi), s.kept]

theorem claimed_chosen (s : Sourced g identities w editors base drawn w' value) {h : ℕ}
    (hsource : source g identities w editors drawn id = some (.held h))
    (hclaimed : claimedHandle identities w drawn (Window.identityOf identities id) node = some h)
    (hviews : ∀ e view h, w.entities.get e = some view → view.focusHandle = some h → h < w.nextHandle) :
    Chosen g identities w editors drawn id value value (some h) w' := by
  refine chosen_kept s (hsource ▸ .some (s.held h ?_))
  unfold claimedHandle at hclaimed
  split at hclaimed
  · cases hclaimed
  · obtain ⟨e, -, hview⟩ := Option.bind_eq_some_iff.mp hclaimed
    obtain ⟨view, hview, hhandle⟩ := Option.bind_eq_some_iff.mp hview
    exact hviews e view h hview hhandle

theorem own_chosen (s : Sourced g identities w editors base drawn w' value)
    (hsource : source g identities w editors drawn id = some (.own id)) (hnew : id ∉ drawn) :
    ∃ value', Chosen g identities w editors drawn id value value' (some w'.nextHandle)
      { w' with nextHandle := w'.nextHandle + 1 } := by
  have hnone : value (.own id) = none := by
    rw [← Option.not_isSome_iff_eq_none]
    exact fun h => hnew (s.owns id h)
  obtain ⟨issued, injective⟩ := update_injective s (.own id)
  refine ⟨Function.update value (.own id) (some w'.nextHandle), extends_update hnone,
    hsource ▸ .some (Function.update_self ..), issued, injective, fun x hx => ?_, fun x hx => ?_,
    fun x => ?_⟩
  · by_cases hxi : x = id
    · exact .inr hxi
    · rw [Function.update_of_ne (by simpa using hxi)] at hx
      exact .inl hx
  · rw [Function.update_of_ne (by simp)] at hx
    exact .inl hx
  · rw [Function.update_of_ne (by simp)]
    exact s.kept x

theorem handle_chosen (s : Sourced g identities w editors base drawn w' value)
    (hnode : g.node id = some node) (hnew : id ∉ drawn)
    (heditors : ∀ i h, editors i = some h → h < w.nextHandle)
    (hviews : ∀ e view h, w.entities.get e = some view → view.focusHandle = some h → h < w.nextHandle) :
    ∃ value', Chosen g identities w editors drawn id value value'
      (w'.handleFor (Window.identityOf identities id) node).1
      (w'.handleFor (Window.identityOf identities id) node).2 := by
  have hsource : ∃ x, source g identities w editors drawn id = x := ⟨_, rfl⟩
  obtain ⟨x, hx⟩ := hsource
  have hx' := hx
  rw [source, hnode, Option.bind_some] at hx'
  unfold Window.handleFor
  rw [claimed_handle s]
  split
  · rename_i hkind
    rw [hkind] at hx'
    exact editor_chosen s rfl (hx.trans hx'.symm) heditors
  · rename_i hkind
    have hother : (if (focusIdentity node.kind).isSome then
        some ((claimedHandle identities w drawn (Window.identityOf identities id) node).elim
          (.own id) .held) else none) = x := by
      cases hk : node.kind <;> rw [hk] at hx' <;> first | exact hx' | exact absurd hk (hkind _ _)
    split
    · rename_i hfocus
      rw [if_pos hfocus] at hother
      split
      · rename_i h hclaimed
        rw [hclaimed, Option.elim_some] at hother
        exact ⟨value, claimed_chosen s (hx.trans hother.symm) hclaimed hviews⟩
      · rename_i hclaimed
        rw [hclaimed, Option.elim_none] at hother
        exact own_chosen s (hx.trans hother.symm) hnew
    · rename_i hfocus
      rw [if_neg hfocus] at hother
      exact ⟨value, chosen_kept s (by rw [hx, ← hother]; exact .none)⟩

theorem controls_elsewhere (hnode : g.node id = some node) {x : ℕ} (hx : x ≠ id) :
    (w'.enter g identities id).focusHandles.get x = w'.focusHandles.get x := by
  obtain ⟨hhandles, -, -⟩ := enter_handle (w := w') identities hnode
  rw [hhandles]
  cases (w'.handleFor (Window.identityOf identities id) node).1 with
  | some h => exact FiniteMap.get_set_ne _ _ hx
  | none => rfl

/-- A view still offered under an identity is not the one that the entered node takes: each is
offered under one identity. -/
theorem offered_apart (s : Sourced g identities w editors base drawn w' value)
    (offering : Offering w) {i : ElementIdentity} {e : ℕ} (hget : w'.recyclable.get i = some e)
    (hfree : ¬(i ≠ [] ∧ i = Window.identityOf identities id)) :
    e ≠ (w'.claimed (Window.identityOf identities id) node).getD w'.nextEntity := by
  have hoffered := hget
  rw [s.offered] at hoffered
  split at hoffered
  · cases hoffered
  · obtain ⟨hlt, view, hview, hidentity⟩ := offering i e hoffered
    rintro rfl
    cases hclaimed : w'.claimed (Window.identityOf identities id) node with
    | none =>
      rw [hclaimed, Option.getD_none] at hlt
      exact absurd s.next (not_le.mpr hlt)
    | some e =>
      rw [hclaimed, Option.getD_some] at hview
      obtain ⟨hne, hother, -⟩ := claimed_iff.mp hclaimed
      rw [s.offered] at hother
      split at hother
      · cases hother
      · obtain ⟨-, view', hview', hidentity'⟩ := offering _ e hother
        obtain rfl := Option.some.inj (hview.symm.trans hview')
        have hi : i = Window.identityOf identities id := hidentity.symm.trans hidentity'
        exact hfree ⟨hi ▸ hne, hi⟩

theorem enter_sourced (s : Sourced g identities w editors base drawn w' value)
    (offering : Offering w) (hnode : g.node id = some node) (hnew : id ∉ drawn) (hbase : base id = none)
    (heditors : ∀ i h, editors i = some h → h < w.nextHandle)
    (hviews : ∀ e view h, w.entities.get e = some view → view.focusHandle = some h → h < w.nextHandle) :
    ∃ value', Extends value value' ∧
      Sourced g identities w editors base (drawn ++ [id]) (w'.enter g identities id) value' := by
  obtain ⟨value', chosen⟩ := handle_chosen s hnode hnew heditors hviews
  obtain ⟨hhandles, hedit, hnext⟩ := enter_handle (w := w') identities hnode
  have entered := enter_entered (w := w') identities hnode
  have hself : source g identities w editors (earlier (drawn ++ [id]) id) id =
      source g identities w editors drawn id := by rw [earlier_self hnew]
  refine ⟨value', chosen.more, fun h hh => chosen.more _ _ (s.held h hh), ?_, chosen.injective, ?_, ?_,
    ?_, ?_, ?_, ?_, ?_, s.next.trans entered.next⟩
  · rw [hnext]
    exact chosen.issued
  · intro x hx
    rcases chosen.owns x hx with h | rfl
    · exact List.mem_append_left [id] (s.owns x h)
    · exact List.mem_append_right drawn List.mem_cons_self
  · intro i hi
    rcases chosen.made i hi with h | ⟨rfl, h⟩
    · obtain ⟨x, hx, hxi, hsource⟩ := s.made i h
      exact ⟨x, List.mem_append_left [id] hx, hxi, by rwa [earlier_append hx]⟩
    · exact ⟨id, List.mem_append_right drawn List.mem_cons_self, rfl, hself.trans h⟩
  · intro i
    rw [hedit]
    exact chosen.kept i
  · intro x hx
    by_cases hxi : x = id
    · subst hxi
      rw [hself, hhandles]
      have hhandle := chosen.handle
      revert hhandle
      cases (w'.handleFor (Window.identityOf identities x) node).1 with
      | some h =>
        rw [Option.elim_some, FiniteMap.get_set_self]
        exact id
      | none =>
        rw [Option.elim_none, s.others x hnew, hbase]
        exact id
    · have hold := (List.mem_append.mp hx).resolve_right (by simpa using hxi)
      rw [earlier_append hold]
      rw [controls_elsewhere hnode hxi]
      exact rel_extends chosen.more (s.controls x hold)
  · intro x hx
    rw [List.mem_append, not_or, List.mem_singleton] at hx
    rw [controls_elsewhere hnode hx.2, s.others x hx.1]
  · intro i
    rw [enter_offered identities hnode, s.offered]
    by_cases hi : i = Window.identityOf identities id
    · subst hi
      by_cases hnil : Window.identityOf identities id = [] <;> simp [hnil]
    · simp [hi]
  · intro i e hget
    rw [enter_offered identities hnode] at hget
    split at hget
    · cases hget
    · rename_i hfree
      rw [entered.entities e (offered_apart s offering hget hfree), s.entities i e hget]

theorem enters_sourced (more : List ℕ) (s : Sourced g identities w editors base drawn w' value)
    (offering : Offering w) (known : ∀ id ∈ more, (g.node id).isSome) (nodup : (drawn ++ more).Nodup)
    (hbase : ∀ id ∈ more, base id = none) (heditors : ∀ i h, editors i = some h → h < w.nextHandle)
    (hviews : ∀ e view h, w.entities.get e = some view → view.focusHandle = some h → h < w.nextHandle) :
    ∃ value', Extends value value' ∧ Sourced g identities w editors base (drawn ++ more)
      (more.foldl (fun w id => w.enter g identities id) w') value' := by
  induction more generalizing drawn w' value with
  | nil => exact ⟨value, fun _ _ h => h, by rwa [List.append_nil]⟩
  | cons id more ih =>
    obtain ⟨node, hnode⟩ := Option.isSome_iff_exists.mp (known id List.mem_cons_self)
    have hnew : id ∉ drawn := fun h =>
      (List.nodup_append.mp nodup).2.2 id h id List.mem_cons_self rfl
    obtain ⟨value₁, hmore₁, s₁⟩ := enter_sourced s offering hnode hnew
      (hbase id List.mem_cons_self) heditors hviews
    rw [List.append_cons] at nodup ⊢
    obtain ⟨value₂, hmore₂, s₂⟩ := ih s₁ (fun x hx => known x (List.mem_cons_of_mem _ hx)) nodup
      fun x hx => hbase x (List.mem_cons_of_mem _ hx)
    exact ⟨value₂, fun x h hx => hmore₂ x h (hmore₁ x h hx), s₂⟩

/-- At first every handle stands for itself. -/
def issued (w : Window K) : Source → Option ℕ
  | .held h => if h < w.nextHandle then some h else none
  | .editor _ | .own _ => none

theorem issued_iff {x : Source} {h : ℕ} :
    issued w x = some h ↔ x = .held h ∧ h < w.nextHandle := by
  cases x with
  | held h' =>
    rw [issued, Option.ite_none_right_eq_some, Option.some.injEq, Source.held.injEq]
    constructor
    · rintro ⟨hlt, rfl⟩
      exact ⟨rfl, hlt⟩
    · rintro ⟨rfl, hlt⟩
      exact ⟨hlt, rfl⟩
  | editor i => simp [issued]
  | own id => simp [issued]

theorem first_sourced (w : Window K) :
    Sourced g identities w w.editors.get w.focusHandles.get [] w (issued w) where
  held h hh := issued_iff.mpr ⟨rfl, hh⟩
  issued _ _ h := (issued_iff.mp h).2
  injective _ _ _ h h' := (issued_iff.mp h).1.trans (issued_iff.mp h').1.symm
  owns _ h := by cases h
  made _ h := by cases h
  kept i := by
    cases w.editors.get i with
    | some h => rfl
    | none => rfl
  controls _ h := by cases h
  others _ _ := rfl
  offered i := by simp
  entities _ _ _ := rfl
  next := le_rfl

theorem source_kept {editors' : ElementIdentity → Option ℕ} {before : List ℕ}
    (h : takesEditor g id = true → editors' (Window.identityOf identities id) =
      editors (Window.identityOf identities id)) :
    source g identities w editors' before id = source g identities w editors before id := by
  unfold source
  unfold takesEditor at h
  cases hnode : g.node id with
  | none => rfl
  | some node =>
    rw [hnode] at h
    rw [Option.bind_some, Option.bind_some]
    split
    · rename_i hkind
      rw [h (by rw [Option.any_some, hkind])]
    · rfl

theorem takes_editor {before : List ℕ} {i : ElementIdentity}
    (h : source g identities w editors before id = some (.editor i)) : takesEditor g id = true := by
  unfold source at h
  unfold takesEditor
  obtain ⟨node, hnode, h⟩ := Option.bind_eq_some_iff.mp h
  rw [hnode, Option.any_some]
  split at h
  · rfl
  · split at h
    · cases hclaimed : claimedHandle identities w before (Window.identityOf identities id) node with
      | some handle =>
        rw [hclaimed] at h
        cases h
      | none =>
        rw [hclaimed] at h
        cases h
    · cases h

theorem retired_sourced (s : Sourced g identities w editors base drawn w' value) {removed : List ℕ}
    {dropped : List ElementIdentity} (hdrawn : ∀ id ∈ drawn, id ∉ removed)
    (hinputs : ∀ id ∈ drawn, takesEditor g id = true → Window.identityOf identities id ∉ dropped) :
    Sourced g identities w (editorsLeft editors dropped)
      (fun id => if id ∈ removed then none else base id) drawn
      ((w'.retire removed).dropEditors dropped) value := by
  have hsource {before : List ℕ} {id : ℕ} (hid : id ∈ drawn) :
      source g identities w (editorsLeft editors dropped) before id =
        source g identities w editors before id :=
    source_kept fun h => if_neg (hinputs id hid h)
  refine ⟨s.held, s.issued, s.injective, s.owns, fun i hi => ?_, fun i => ?_, fun id hid => ?_,
    fun id hid => ?_, s.offered, s.entities, s.next⟩
  · obtain ⟨id, hid, hidentity, h⟩ := s.made i hi
    exact ⟨id, hid, hidentity, (hsource hid).trans h⟩
  · rw [Window.dropEditors, get_removed]
    split
    · rename_i hdropped
      rw [Option.none_or]
      by_contra hne
      obtain ⟨id, hid, rfl, h⟩ := s.made i (Option.isSome_iff_ne_none.mpr (Ne.symm hne))
      exact hinputs id hid (takes_editor h) hdropped
    · exact s.kept i
  · rw [hsource hid]
    have hkept : ((w'.retire removed).dropEditors dropped).focusHandles.get id = w'.focusHandles.get id := by
      rw [Window.dropEditors, Window.retire, get_removed, if_neg (hdrawn id hid)]
    rw [hkept]
    exact s.controls id hid
  · rw [Window.dropEditors, Window.retire, get_removed, s.others id hid]

theorem sourced_rel (s : Sourced g identities w editors base drawn w' value)
    (hbase : ∀ id h, base id = some h → h < w.nextHandle) (id : ℕ) : Option.Rel (fun s h => value s = some h)
      (sourceIn g identities w editors base drawn id) (w'.focusHandles.get id) := by
  unfold sourceIn
  split
  · rename_i hid
    exact s.controls id hid
  · rename_i hid
    rw [s.others id hid]
    cases hget : base id with
    | none => exact .none
    | some h => exact .some (s.held h (hbase id h hget))

theorem rel_or {a a' : Option Source} {b b' : Option ℕ}
    (h : Option.Rel (fun s h => value s = some h) a b)
    (h' : Option.Rel (fun s h => value s = some h) a' b') :
    Option.Rel (fun s h => value s = some h) (a.or a') (b.or b') := by
  cases h with
  | some hvalue => exact .some hvalue
  | none => exact h'

theorem rel_same (injective : ∀ s s' h, value s = some h → value s' = some h → s = s')
    {a a' : Option Source} {b b' : Option ℕ} (h : Option.Rel (fun s h => value s = some h) a b)
    (h' : Option.Rel (fun s h => value s = some h) a' b') :
    b.isSome ∧ b' = b ↔ a.isSome ∧ a' = a := by
  cases h with
  | none => simp
  | some hvalue =>
    cases h' with
    | none => simp
    | some hvalue' =>
      simp only [Option.isSome_some, true_and, Option.some.injEq]
      constructor
      · rintro rfl
        exact injective _ _ _ hvalue' hvalue
      · rintro rfl
        exact Option.some.inj (hvalue'.symm.trans hvalue)

/-- The handles while a frame is drawn: the patch draws `built`, what it retires goes, and then the
rows of `rows` are drawn. -/
theorem frame_sourced (hissued : Issued w) (doomed built rows removed : List ℕ)
    (dropped : List ElementIdentity) (known : ∀ id ∈ built ++ rows, (g.node id).isSome)
    (nodup : (built ++ rows).Nodup) (hnew : ∀ id ∈ built ++ rows, w.focusHandles.get id = none)
    (hkept : ∀ id ∈ built, id ∉ removed)
    (hinputs : ∀ id ∈ built, takesEditor g id = true → Window.identityOf identities id ∉ dropped) :
    ∃ value value', Extends value value' ∧
      Sourced g identities (w.offer doomed) (editorsLeft w.editors.get dropped)
        (fun id => if id ∈ removed then none else w.focusHandles.get id) built
        (((w.materialize g identities doomed built).retire removed).dropEditors dropped) value ∧
      Sourced g identities (w.offer doomed) (editorsLeft w.editors.get dropped)
        (fun id => if id ∈ removed then none else w.focusHandles.get id) (built ++ rows)
        (rows.foldl (fun w id => w.enter g identities id)
          (((w.materialize g identities doomed built).retire removed).dropEditors dropped)) value' := by
  have offering := offers hissued.entities doomed
  obtain ⟨value, -, s⟩ := enters_sourced built (first_sourced (w.offer doomed)) offering
    (fun id hid => known id (List.mem_append_left rows hid)) (List.nodup_append.mp nodup).1
    (fun id hid => hnew id (List.mem_append_left rows hid)) hissued.editors hissued.views
  have s := retired_sourced s hkept hinputs
  obtain ⟨value', hmore, s'⟩ := enters_sourced rows s offering
    (fun id hid => known id (List.mem_append_right built hid)) nodup
    (fun id hid => by
      rw [show (w.offer doomed).focusHandles.get id = none from hnew id (List.mem_append_right built hid)]
      split <;> rfl)
    (fun i h hi => by
      rw [editorsLeft] at hi
      split at hi
      · cases hi
      · exact hissued.editors i h hi) hissued.views
  exact ⟨value, value', hmore, s, s'⟩

end Entering

end FocusHandles
