import RocGui.GraphPatches

/-! Hover and popovers: what pointer edges, an elapsed delay, focus and Escape do to the
interaction state of a mounted graph. -/
namespace Popovers

open FiniteMaps Methods GraphState GraphPatches

variable {K : Type}

section Presentation

def openPopover (id : ℕ) (p : PopoverState) : PopoverState × Bool :=
  ({ p with
      pending := p.pending.erase id
      shown := insert id p.shown
      opened := if id ∈ p.shown then p.opened else p.opened + 1 }, id ∉ p.shown)

def closePopover (id : ℕ) (p : PopoverState) : PopoverState × Bool :=
  ({ p with
      pending := p.pending.erase id
      shown := p.shown.erase id
      closed := if id ∈ p.shown then p.closed + 1 else p.closed }, id ∈ p.shown)

def hoverEnterEventBit : ℕ := 2 ^ 62

def hoverExitEventBit : ℕ := 2 ^ 61

/-- Only installed hover handlers on live enabled controls. -/
def hoverRoute (g : MountedGraph K) (id : ℕ) (entered : Bool) : Option ℕ :=
  match (g.node id).map Node.kind with
  | some (.button _ true hoverEnter hoverExit) | some (.popover _ _ hoverEnter hoverExit _ _) =>
    if (if entered then hoverEnter else hoverExit) then
      some (id ||| if entered then hoverEnterEventBit else hoverExitEventBit)
    else none
  | _ => none

def delayOf (g : MountedGraph K) (id : ℕ) : ℕ :=
  match (g.node id).map Node.kind with
  | some (.popover _ delayMs _ _ _ _) => delayMs
  | _ => 0

def popoverHoverEdge (presents : Bool) (delay id : ℕ) (entered : Bool) (p : PopoverState) :
    PopoverState :=
  if ¬presents then p
  else if entered then
    if delay = 0 then (openPopover id p).1
    else if id ∉ p.shown then { p with pending := insert id p.pending }
    else p
  else
    let p := { p with pending := p.pending.erase id }
    if id ∉ p.focusWithin then (closePopover id p).1 else p

/-- The pointer enters or leaves `id`; whether this changed anything. -/
def hoverEdge (presents : Bool) (delay id : ℕ) (entered : Bool) (i : Interaction) :
    Interaction × Bool :=
  let changed : Bool := if entered then id ∉ i.hovered else id ∈ i.hovered
  ({ i with
      hovered := if entered then insert id i.hovered else i.hovered.erase id
      popovers := if changed then popoverHoverEdge presents delay id entered i.popovers
        else i.popovers }, changed)

/-- Opens the popover only if the pointer is still resting on its anchor. -/
def popoverElapse (id : ℕ) (i : Interaction) : Interaction × Bool :=
  let waited := { i.popovers with pending := i.popovers.pending.erase id }
  if id ∈ i.popovers.pending ∧ id ∈ i.hovered then
    let opening := openPopover id waited
    ({ i with popovers := opening.1 }, opening.2)
  else ({ i with popovers := waited }, false)

/-- Keyboard focus entered or left a popover; whether it opened or closed. -/
def popoverFocus (presents : Bool) (id : ℕ) (within : Bool) (i : Interaction) :
    Interaction × Bool :=
  if ¬presents then (i, false)
  else if within then
    let opening := openPopover id
      { i.popovers with focusWithin := insert id i.popovers.focusWithin }
    ({ i with popovers := opening.1 }, opening.2)
  else
    let left := { i.popovers with focusWithin := i.popovers.focusWithin.erase id }
    if id ∉ i.hovered then
      let closing := closePopover id left
      ({ i with popovers := closing.1 }, closing.2)
    else ({ i with popovers := left }, false)

/-- One turn of the loops over the popovers that focus left and entered. -/
def focusTurn (presents : ℕ → Bool) (within : Bool) (moved : Interaction × List ℕ) (id : ℕ) :
    Interaction × List ℕ :=
  if within ∧ id ∈ moved.1.popovers.focusWithin then moved
  else
    let turned := popoverFocus (presents id) id within moved.1
    (turned.1, if turned.2 then moved.2 ++ [id] else moved.2)

def focusWithin (presents : ℕ → Bool) (containing : List ℕ) (i : Interaction) :
    Interaction × List ℕ :=
  let left := ascending (i.popovers.focusWithin.filter (· ∉ containing))
  containing.foldl (focusTurn presents true) (left.foldl (focusTurn presents false) (i, []))

/-- Escape closes every presenting popover and cancels every pending one. -/
def dismissPopovers (i : Interaction) : Interaction × List ℕ :=
  ({ i with popovers := { i.popovers with
      shown := ∅
      pending := ∅
      focusWithin := ∅
      dismissed := i.popovers.dismissed + i.popovers.shown.card } }, ascending i.popovers.shown)

end Presentation

section Graph

/-- A call that only rewrites the interaction state. -/
def interact {α : Type} (f : Interaction → Interaction × α) : GraphMethod K α := do
  let answer := f (← get).interaction
  modify fun g => { g with interaction := answer.1 }
  return answer.2

def behindDialog (id : ℕ) (g : MountedGraph K) : Reading K Bool :=
  match g.dialog with
  | none => .ok false
  | some dialog => do return !(← g.isDescendantOf id dialog)

def tracksHover (g : MountedGraph K) (id : ℕ) : Bool :=
  (g.node id).elim false fun node => node.kind.tracksHover

/-- The route of the handler to call, when the edge was one and has a handler. -/
def hoverTransition (id : ℕ) (entered : Bool) : GraphMethod K (Option ℕ) := do
  let g ← get
  if ← query (behindDialog id) then return none
  if ¬tracksHover g id then return none
  let changed ← interact (hoverEdge (g.presents id) (delayOf g id) id entered)
  return if changed then hoverRoute g id entered else none

/-- The parent of an ordinary child. A keyed child has none here. -/
def parentOf (g : MountedGraph K) (id : ℕ) : Option (ℕ × ℕ) :=
  match g.parentLocation id with
  | some (.ordinaryIndex parent index) => some (parent, index)
  | _ => none

/-- The presenting popovers from `current` upwards, the innermost first. -/
def containingFrom (g : MountedGraph K) : ℕ → Option ℕ → Reading K (List ℕ)
  | _, none => .ok []
  | 0, some _ => .error .diverges
  | fuel + 1, some id => do
    let above ← containingFrom g fuel ((parentOf g id).map (·.1))
    return if g.presents id then id :: above else above

/-- Focus moved to `focused`, or left every control; the popovers whose presentation
changed. -/
def popoverFocusMoved (focused : Option ℕ) : GraphMethod K (List ℕ) := do
  let g ← get
  let containing ← query fun g => containingFrom g g.climb focused
  interact (focusWithin g.presents containing)

end Graph

section Held

/-- How the sets of the interaction state lie to one another: `tracks`, `presents` and
`inside` say which nodes may be in them. -/
structure Held (tracks presents inside : ℕ → Prop) (hovered : Finset ℕ) (p : PopoverState) :
    Prop where
  tracked : ∀ x ∈ hovered, tracks x ∧ inside x
  presenting : ∀ x, x ∈ p.pending ∨ x ∈ p.shown ∨ x ∈ p.focusWithin → presents x ∧ inside x
  waiting : ∀ x ∈ p.pending, x ∈ hovered ∧ x ∉ p.shown
  reason : ∀ x ∈ p.shown, x ∈ hovered ∨ x ∈ p.focusWithin

variable {tracks presents inside : ℕ → Prop} {hovered : Finset ℕ} {p : PopoverState} {id : ℕ}

theorem held_empty : Held tracks presents inside ∅ ⟨∅, ∅, ∅, 0, 0, 0⟩ := by
  constructor <;> simp

theorem held_hover (h : Held tracks presents inside hovered p) (htracks : tracks id)
    (hinside : inside id) : Held tracks presents inside (insert id hovered) p where
  tracked x hx := by
    rcases Finset.mem_insert.mp hx with rfl | hx
    · exact ⟨htracks, hinside⟩
    · exact h.tracked x hx
  presenting := h.presenting
  waiting x hx := (h.waiting x hx).imp_left Finset.mem_insert_of_mem
  reason x hx := (h.reason x hx).imp_left Finset.mem_insert_of_mem

theorem held_unhover (h : Held tracks presents inside hovered p) (idle : id ∉ p.pending)
    (focused : id ∈ p.shown → id ∈ p.focusWithin) :
    Held tracks presents inside (hovered.erase id) p where
  tracked x hx := h.tracked x (Finset.mem_of_mem_erase hx)
  presenting := h.presenting
  waiting x hx := by
    have hne : x ≠ id := fun heq => idle (heq ▸ hx)
    exact (h.waiting x hx).imp_left (Finset.mem_erase_of_ne_of_mem hne)
  reason x hx := by
    by_cases hne : x = id
    · exact .inr (hne ▸ focused (hne ▸ hx))
    · exact (h.reason x hx).imp_left (Finset.mem_erase_of_ne_of_mem hne)

theorem held_wait (h : Held tracks presents inside hovered p) (hid : presents id ∧ inside id)
    (resting : id ∈ hovered) (closed : id ∉ p.shown) :
    Held tracks presents inside hovered { p with pending := insert id p.pending } where
  tracked := h.tracked
  presenting x hx := by
    rw [Finset.mem_insert, or_assoc] at hx
    exact hx.elim (fun heq => heq ▸ hid) (h.presenting x)
  waiting x hx := by
    rcases Finset.mem_insert.mp hx with rfl | hx
    · exact ⟨resting, closed⟩
    · exact h.waiting x hx
  reason := h.reason

theorem held_cancel (h : Held tracks presents inside hovered p) (id : ℕ) :
    Held tracks presents inside hovered { p with pending := p.pending.erase id } where
  tracked := h.tracked
  presenting x hx := h.presenting x (hx.imp_left Finset.mem_of_mem_erase)
  waiting x hx := h.waiting x (Finset.mem_of_mem_erase hx)
  reason := h.reason

theorem held_open (h : Held tracks presents inside hovered p) (hid : presents id ∧ inside id)
    (cause : id ∈ hovered ∨ id ∈ p.focusWithin) :
    Held tracks presents inside hovered (openPopover id p).1 where
  tracked := h.tracked
  presenting x hx := by
    simp only [openPopover, Finset.mem_insert] at hx
    by_cases hne : x = id
    · exact hne ▸ hid
    · exact h.presenting x (hx.imp Finset.mem_of_mem_erase (Or.imp_left (Or.resolve_left · hne)))
  waiting x hx := by
    obtain ⟨hne, hx⟩ := Finset.mem_erase.mp hx
    refine (h.waiting x hx).imp_right fun closed opened => ?_
    exact (Finset.mem_insert.mp opened).elim hne closed
  reason x hx := by
    rcases Finset.mem_insert.mp hx with rfl | hx
    · exact cause
    · exact h.reason x hx

theorem held_close (h : Held tracks presents inside hovered p) (id : ℕ) :
    Held tracks presents inside hovered (closePopover id p).1 where
  tracked := h.tracked
  presenting x hx :=
    h.presenting x (hx.imp Finset.mem_of_mem_erase (Or.imp_left Finset.mem_of_mem_erase))
  waiting x hx := by
    refine (h.waiting x (Finset.mem_of_mem_erase hx)).imp_right fun closed opened => ?_
    exact closed (Finset.mem_of_mem_erase opened)
  reason x hx := h.reason x (Finset.mem_of_mem_erase hx)

theorem held_focus (h : Held tracks presents inside hovered p) (hid : presents id ∧ inside id) :
    Held tracks presents inside hovered { p with focusWithin := insert id p.focusWithin } where
  tracked := h.tracked
  presenting x hx := by
    by_cases hne : x = id
    · exact hne ▸ hid
    · refine h.presenting x (hx.imp_right (Or.imp_right fun hx => ?_))
      exact (Finset.mem_insert.mp hx).resolve_left hne
  waiting := h.waiting
  reason x hx := (h.reason x hx).imp_right Finset.mem_insert_of_mem

theorem held_unfocus (h : Held tracks presents inside hovered p)
    (resting : id ∈ p.shown → id ∈ hovered) :
    Held tracks presents inside hovered { p with focusWithin := p.focusWithin.erase id } where
  tracked := h.tracked
  presenting x hx := h.presenting x (hx.imp_right (Or.imp_right Finset.mem_of_mem_erase))
  waiting := h.waiting
  reason x hx := by
    by_cases hne : x = id
    · exact .inl (hne ▸ resting (hne ▸ hx))
    · exact (h.reason x hx).imp_right (Finset.mem_erase_of_ne_of_mem hne)

end Held

section Calls

variable {tracks presents inside : ℕ → Prop} {i : Interaction} {id : ℕ} {shows : Bool}

/-- The interaction state as the calls leave it. -/
abbrev HeldIn (tracks presents inside : ℕ → Prop) (i : Interaction) : Prop :=
  Held tracks presents inside i.hovered i.popovers

theorem held_entered {delay : ℕ} (h : HeldIn tracks presents inside i) (htracks : tracks id)
    (hshows : shows = true → presents id) (hinside : inside id) :
    HeldIn tracks presents inside (hoverEdge shows delay id true i).1 := by
  have hover := held_hover h htracks hinside
  have resting : id ∈ insert id i.hovered := Finset.mem_insert_self _ _
  unfold HeldIn hoverEdge
  by_cases hid : id ∈ i.hovered
  · simpa [hid] using h
  simp only [hid, if_true, not_false_eq_true, decide_true, popoverHoverEdge]
  cases shows with
  | false => exact hover
  | true =>
    have self := And.intro (hshows rfl) hinside
    by_cases hdelay : delay = 0
    · simpa [hdelay] using held_open hover self (.inl resting)
    by_cases hshown : id ∈ i.popovers.shown
    · simpa [hdelay, hshown] using hover
    · simpa [hdelay, hshown] using held_wait hover self resting hshown

theorem held_left {delay : ℕ} (h : HeldIn tracks presents inside i)
    (hshows : presents id → shows = true) :
    HeldIn tracks presents inside (hoverEdge shows delay id false i).1 := by
  unfold HeldIn hoverEdge
  by_cases hid : id ∈ i.hovered
  · simp only [hid, Bool.false_eq_true, if_false, decide_true, if_true, popoverHoverEdge]
    cases hs : shows with
    | false =>
      have absent (hx : id ∈ i.popovers.pending ∨ id ∈ i.popovers.shown ∨
          id ∈ i.popovers.focusWithin) : False := by
        have := hshows (h.presenting id hx).1
        rw [hs] at this
        cases this
      exact held_unhover h (fun hp => absent (.inl hp)) fun hsh => (absent (.inr (.inl hsh))).elim
    | true =>
      have cancelled := held_cancel h id
      have idle : id ∉ i.popovers.pending.erase id := Finset.notMem_erase _ _
      by_cases hfocus : id ∈ i.popovers.focusWithin
      · simpa [hfocus] using held_unhover cancelled idle fun _ => hfocus
      · have closed := held_close cancelled id
        have := held_unhover closed (Finset.notMem_erase id _)
          fun hsh => absurd hsh (Finset.notMem_erase _ _)
        simpa [hfocus] using this
  · simpa [hid] using h

theorem held_elapsed (h : HeldIn tracks presents inside i) (id : ℕ) :
    HeldIn tracks presents inside (popoverElapse id i).1 := by
  have cancelled := held_cancel h id
  unfold popoverElapse
  dsimp only
  split
  · rename_i hid
    exact held_open cancelled (h.presenting id (.inl hid.1)) (.inl hid.2)
  · exact cancelled

theorem held_focused (h : HeldIn tracks presents inside i) (hshows : shows = true → presents id)
    (hinside : inside id) : HeldIn tracks presents inside (popoverFocus shows id true i).1 := by
  unfold popoverFocus
  cases shows with
  | false => exact h
  | true =>
    have self := And.intro (hshows rfl) hinside
    exact held_open (held_focus h self) self (.inr (Finset.mem_insert_self _ _))

theorem held_blurred (h : HeldIn tracks presents inside i) :
    HeldIn tracks presents inside (popoverFocus shows id false i).1 := by
  unfold popoverFocus
  cases shows with
  | false => exact h
  | true =>
    by_cases hid : id ∈ i.hovered
    · simpa [hid] using held_unfocus h fun _ => hid
    · have closed := held_close h id
      rw [if_neg (by simp), if_neg (by simp), if_pos hid]
      exact held_unfocus closed fun hsh => absurd hsh (Finset.notMem_erase _ _)

theorem held_turn {within : Bool} {shows : ℕ → Bool} {moved : Interaction × List ℕ}
    (h : HeldIn tracks presents inside moved.1)
    (hid : within = true → (shows id = true → presents id) ∧ inside id) :
    HeldIn tracks presents inside (focusTurn shows within moved id).1 := by
  unfold focusTurn
  split
  · exact h
  · cases within with
    | false => exact held_blurred h
    | true => exact held_focused h (hid rfl).1 (hid rfl).2

theorem held_turns {within : Bool} {shows : ℕ → Bool} {moved : Interaction × List ℕ}
    (ids : List ℕ) (h : HeldIn tracks presents inside moved.1)
    (hids : ∀ id ∈ ids, within = true → (shows id = true → presents id) ∧ inside id) :
    HeldIn tracks presents inside (ids.foldl (focusTurn shows within) moved).1 := by
  induction ids generalizing moved with
  | nil => exact h
  | cons id rest ih =>
    exact ih (held_turn h (hids id List.mem_cons_self)) fun x hx =>
      hids x (List.mem_cons_of_mem _ hx)

theorem held_moved {shows : ℕ → Bool} {containing : List ℕ} (h : HeldIn tracks presents inside i)
    (hids : ∀ id ∈ containing, (shows id = true → presents id) ∧ inside id) :
    HeldIn tracks presents inside (focusWithin shows containing i).1 := by
  let leaving := ascending (i.popovers.focusWithin.filter (· ∉ containing))
  have left : HeldIn tracks presents inside
      (leaving.foldl (focusTurn shows false) (i, [])).1 := by
    apply held_turns leaving h
    intro _ _ hf
    cases hf
  exact held_turns containing left fun id hid _ => hids id hid

theorem held_dismissed (h : HeldIn tracks presents inside i) :
    HeldIn tracks presents inside (dismissPopovers i).1 := by
  refine ⟨h.tracked, fun x hx => ?_, fun x hx => ?_, fun x hx => ?_⟩
  · simp [dismissPopovers] at hx
  · exact absurd hx (Finset.notMem_empty x)
  · exact absurd hx (Finset.notMem_empty x)

theorem held_blocked {inside' : ℕ → Prop} {blocked : Finset ℕ}
    (h : HeldIn tracks presents inside i) (kept : ∀ x, x ∉ blocked → x ∈ i.hovered ∪
      i.popovers.shown ∪ i.popovers.pending ∪ i.popovers.focusWithin → inside' x) :
    HeldIn tracks presents inside' (Interaction.block blocked i) := by
  refine ⟨fun x hx => ?_, fun x hx => ?_, fun x hx => ?_, fun x hx => ?_⟩
  · obtain ⟨hx, hout⟩ := Finset.mem_sdiff.mp hx
    exact ⟨(h.tracked x hx).1, kept x hout (by simp [hx])⟩
  · simp only [Interaction.block, Finset.mem_sdiff, ← or_and_right] at hx
    obtain ⟨hx, hout⟩ := hx
    refine ⟨(h.presenting x hx).1, kept x hout ?_⟩
    simp only [Finset.mem_union]
    tauto
  · simp only [Interaction.block, Finset.mem_sdiff, not_and] at hx ⊢
    obtain ⟨hhover, hclosed⟩ := h.waiting x hx.1
    exact ⟨⟨hhover, hx.2⟩, fun hshown => absurd hshown hclosed⟩
  · simp only [Interaction.block, Finset.mem_sdiff, ← or_and_right] at hx ⊢
    exact ⟨h.reason x hx.1, hx.2⟩

end Calls

end Popovers
