import RocGui.PopoverRuns

/-! Which popovers keyboard focus is within after it moved, in every graph that events and
accepted patches reach. -/
namespace FocusWithin

open FiniteMaps Methods GraphState FragmentValidation GraphPatches GraphRuns GraphOwners
open Popovers PopoverCarries PopoverRuns Transitions

variable {K : Type} [DecidableEq K]

section Moves

variable {shows : ℕ → Bool} {containing ids : List ℕ} {moved : Interaction × List ℕ}
  {i : Interaction} {id p : ℕ}

@[simp]
theorem focusWithin_open (id : ℕ) (p : PopoverState) :
    (openPopover id p).1.focusWithin = p.focusWithin := rfl

@[simp]
theorem focusWithin_close (id : ℕ) (p : PopoverState) :
    (closePopover id p).1.focusWithin = p.focusWithin := rfl

theorem mem_entered : p ∈ (focusTurn shows true moved id).1.popovers.focusWithin ↔
    p ∈ moved.1.popovers.focusWithin ∨ p = id ∧ shows id = true := by
  unfold focusTurn
  by_cases hid : id ∈ moved.1.popovers.focusWithin
  · rw [if_pos ⟨rfl, hid⟩]
    constructor
    · exact .inl
    · rintro (hp | ⟨rfl, -⟩)
      · exact hp
      · exact hid
  · rw [if_neg fun h => hid h.2]
    cases hs : shows id with
    | false => simp [popoverFocus]
    | true => simp [popoverFocus, or_comm]

theorem mem_left : p ∈ (focusTurn shows false moved id).1.popovers.focusWithin ↔
    p ∈ moved.1.popovers.focusWithin ∧ ¬(p = id ∧ shows id = true) := by
  unfold focusTurn
  rw [if_neg fun h => Bool.false_ne_true h.1]
  cases hs : shows id with
  | false => simp [popoverFocus]
  | true =>
    by_cases hhover : id ∈ moved.1.hovered
    · simp [popoverFocus, hhover, and_comm]
    · simp [popoverFocus, hhover, and_comm]

theorem mem_all_entered : p ∈ (ids.foldl (focusTurn shows true) moved).1.popovers.focusWithin ↔
    p ∈ moved.1.popovers.focusWithin ∨ p ∈ ids ∧ shows p = true := by
  induction ids generalizing moved with
  | nil => simp
  | cons id rest ih =>
    rw [List.foldl_cons, ih, mem_entered, List.mem_cons, or_and_right, or_assoc]
    refine or_congr_right (or_congr_left (and_congr_right fun h => ?_))
    rw [h]

theorem mem_all_left : p ∈ (ids.foldl (focusTurn shows false) moved).1.popovers.focusWithin ↔
    p ∈ moved.1.popovers.focusWithin ∧ ¬(p ∈ ids ∧ shows p = true) := by
  induction ids generalizing moved with
  | nil => simp
  | cons id rest ih =>
    rw [List.foldl_cons, ih, mem_left, List.mem_cons, or_and_right, not_or, and_assoc]
    refine and_congr_right fun _ => and_congr_left fun _ => not_congr (and_congr_right fun h => ?_)
    rw [h]

theorem mem_moved : p ∈ (focusWithin shows containing i).1.popovers.focusWithin ↔
    p ∈ containing ∧ shows p = true ∨ p ∈ i.popovers.focusWithin ∧ shows p = false := by
  have left : p ∈ ascending (i.popovers.focusWithin.filter (· ∉ containing)) ↔
      p ∈ i.popovers.focusWithin ∧ p ∉ containing := by
    rw [mem_ascending, Finset.mem_filter]
  rw [focusWithin, mem_all_entered, mem_all_left, left]
  cases shows p <;> by_cases hin : p ∈ containing <;> simp [hin]

end Moves

section Climbs

variable {g : MountedGraph K} {x p : ℕ}

def Above (g : MountedGraph K) : ℕ → ℕ → Prop :=
  Relation.ReflTransGen fun c p => (g.parentLocation c).map (·.parent) = some p

omit [DecidableEq K] in
theorem parent_ordinary {q : ℕ} (h : (parentOf g x).map (·.1) = some q) :
    (g.parentLocation x).map (·.parent) = some q := by
  rw [parentOf] at h
  cases hl : g.parentLocation x with
  | none =>
    rw [hl] at h
    cases h
  | some l =>
    rw [hl] at h
    cases l with
    | ordinaryIndex parent index => exact h
    | keyed container key instanceId => cases h

omit [DecidableEq K] in
theorem above_of_ordinary (h : OrdinarilyAbove g x p) : Above g x p := by
  induction h with
  | refl => exact .refl
  | tail _ hparent above => exact above.tail (parent_ordinary hparent)

omit [DecidableEq K] in
theorem containing_complete {fuel : ℕ} {ids : List ℕ}
    (h : containingFrom g fuel (some x) = .ok ids) (above : OrdinarilyAbove g x p)
    (hp : g.presents p = true) : p ∈ ids := by
  induction fuel generalizing x ids with
  | zero => cases h
  | succ fuel ih =>
    rw [containingFrom] at h
    obtain ⟨rest, hrest, h⟩ := except_bind_ok.mp h
    obtain rfl := Except.ok.inj h
    rcases above.cases_head with rfl | ⟨q, hq, above⟩
    · rw [if_pos hp]
      exact List.mem_cons_self
    · rw [hq] at hrest
      have := ih hrest above
      split
      · exact List.mem_cons_of_mem _ this
      · exact this

omit [DecidableEq K] in
theorem mem_containing_iff {fuel : ℕ} {focused : Option ℕ} {ids : List ℕ}
    (h : containingFrom g fuel focused = .ok ids) :
    p ∈ ids ↔ g.presents p = true ∧ ∃ x ∈ focused, OrdinarilyAbove g x p := by
  cases focused with
  | none =>
    have hnil : ids = [] := by cases fuel <;> exact (Except.ok.inj h).symm
    simp [hnil]
  | some x =>
    constructor
    · intro hp
      obtain ⟨above, hpresents⟩ := mem_containing h hp
      exact ⟨hpresents, x, rfl, above⟩
    · rintro ⟨hpresents, y, hy, above⟩
      obtain rfl := Option.some.inj hy
      exact containing_complete h above hpresents

end Climbs

section Runs

variable {g v : MountedGraph K}

/-- Every event in every graph. Refused patches are no steps. -/
def calling (K : Type) [DecidableEq K] : System (MountedGraph K) (Event K) where
  initial := .empty
  Step g event v := ∃ hashOrder, (call hashOrder event).run g = .ok () v

/-- What focus is within presents. -/
def WithinPresents (g : MountedGraph K) : Prop :=
  ∀ p ∈ g.interaction.popovers.focusWithin, g.presents p = true

theorem patch_within (s : Sound g) (within : WithinPresents g) {patch : Patch K}
    (step : (accepting K).Step g patch v) : WithinPresents v := by
  rcases step_patched s step with rfl | ⟨start, t, removed, nodes, frontier, tops, site, root, h⟩
  · exact within
  intro p hp
  have held : p ∈ heldBy t.interaction .focusWithin := by
    obtain ⟨-, ⟨hlast, -⟩ | ⟨blocked, hlast, -⟩⟩ := h.handed.finished
    · rwa [hlast] at hp
    · rw [hlast] at hp
      exact (Finset.mem_sdiff.mp hp).1
  rcases (h.handed.held .focusWithin p).mp held with ⟨hkept, hr⟩ | ⟨-, -, hpresents, -⟩
  · rw [h.interaction] at hkept
    exact h.presenting s.shape hr (within p hkept)
  · exact hpresents (by simp)

omit [DecidableEq K] in
theorem within_interaction {i : Interaction} (within : WithinPresents g)
    (same : i.popovers.focusWithin ⊆ g.interaction.popovers.focusWithin) :
    WithinPresents (withInteraction g i) :=
  fun p hp => within p (same hp)

theorem within_hover {presents entered : Bool} {delay id : ℕ} {s : PopoverState} :
    (popoverHoverEdge presents delay id entered s).focusWithin = s.focusWithin := by
  unfold popoverHoverEdge
  dsimp only
  split
  · rfl
  · split
    · split
      · rfl
      · split <;> rfl
    · split <;> rfl

theorem within_edge {presents entered : Bool} {delay id : ℕ} {i : Interaction} :
    (hoverEdge presents delay id entered i).1.popovers.focusWithin = i.popovers.focusWithin := by
  have edge (changed : Bool) : (if changed then popoverHoverEdge presents delay id entered i.popovers
      else i.popovers).focusWithin = i.popovers.focusWithin := by
    cases changed with
    | true => exact within_hover
    | false => rfl
  exact edge _

theorem within_elapsed {id : ℕ} {i : Interaction} :
    (popoverElapse id i).1.popovers.focusWithin = i.popovers.focusWithin := by
  unfold popoverElapse
  dsimp only
  split <;> rfl

theorem step_within {event : Event K} (s : Sound g) (within : WithinPresents g)
    (step : (calling K).Step g event v) : Sound v ∧ WithinPresents v := by
  obtain ⟨hashOrder, hcall⟩ := step
  cases event with
  | pointer id entered =>
    simp only [call, bind_ok, pure_ok] at hcall
    obtain ⟨route, _, hhover, -, rfl⟩ := hcall
    rcases hover_ok hhover with rfl | ⟨-, -, rfl⟩
    · exact ⟨s, within⟩
    · exact ⟨sound_interaction s rfl, within_interaction within within_edge.subset⟩
  | elapse id =>
    simp only [call, bind_ok, interact_ok, pure_ok] at hcall
    obtain ⟨_, _, ⟨-, rfl⟩, -, rfl⟩ := hcall
    exact ⟨sound_interaction s elapsed_keyboard, within_interaction within within_elapsed.subset⟩
  | focus focused =>
    simp only [call, popoverFocusMoved, bind_ok, get_ok, query_run_ok, interact_ok, pure_ok] at hcall
    obtain ⟨_, _, ⟨_, _, ⟨rfl, rfl⟩, containing, _, ⟨hcontaining, rfl⟩, -, rfl⟩, -, rfl⟩ := hcall
    refine ⟨sound_interaction s moved_keyboard, fun p hp => ?_⟩
    rcases mem_moved.mp hp with ⟨-, hpresents⟩ | ⟨hfocus, -⟩
    · exact hpresents
    · exact within p hfocus
  | escape =>
    simp only [call, bind_ok, interact_ok, pure_ok] at hcall
    obtain ⟨_, _, ⟨-, rfl⟩, -, rfl⟩ := hcall
    exact ⟨sound_interaction s rfl, within_interaction within (Finset.empty_subset _)⟩
  | patch patch =>
    simp only [call, bind_ok, pure_ok] at hcall
    obtain ⟨a, _, hpatch, -, rfl⟩ := hcall
    exact ⟨sound_patched s ⟨hashOrder, a, hpatch⟩, patch_within s within ⟨hashOrder, a, hpatch⟩⟩

theorem reached_within (h : Reachable (calling K) g) : Sound g ∧ WithinPresents g := by
  refine reachable_invariant (S := calling K) (P := fun g => Sound g ∧ WithinPresents g)
    ⟨sound_empty, fun p hp => ?_⟩ (fun _ _ _ h => step_within h.1 h.2) h
  cases Finset.notMem_empty p hp

end Runs

section Exactness

variable {g v : MountedGraph K}

omit [DecidableEq K] in
theorem focus_moved (within : WithinPresents g) {focused : Option ℕ} {changed : List ℕ}
    (h : (popoverFocusMoved focused).run g = .ok changed v) (p : ℕ) :
    p ∈ v.interaction.popovers.focusWithin ↔
      g.presents p = true ∧ ∃ x ∈ focused, OrdinarilyAbove g x p := by
  simp only [popoverFocusMoved, bind_ok, get_ok, query_run_ok, interact_ok] at h
  obtain ⟨_, _, ⟨rfl, rfl⟩, containing, _, ⟨hcontaining, rfl⟩, -, rfl⟩ := h
  have hmoved : p ∈ (withInteraction g (focusWithin g.presents containing g.interaction).1
      ).interaction.popovers.focusWithin ↔ _ := mem_moved
  rw [hmoved, mem_containing_iff hcontaining]
  constructor
  · rintro (⟨h, -⟩ | ⟨hfocus, hnot⟩)
    · exact h
    · rw [within p hfocus] at hnot
      cases hnot
  · exact fun h => .inl ⟨h, h.1⟩

/-- Focus is within exactly the presenting popovers above the focused node when and only
when no keyed item stands between the node and one of them. -/
theorem focus_within_exact (h : Reachable (calling K) g) (focused : Option ℕ) :
    ∃ changed v, (popoverFocusMoved focused).run g = .ok changed v ∧
      ((∀ p, p ∈ v.interaction.popovers.focusWithin ↔
          g.presents p = true ∧ ∃ x ∈ focused, Above g x p) ↔
        ∀ x ∈ focused, ∀ p, Above g x p → g.presents p = true → OrdinarilyAbove g x p) := by
  obtain ⟨s, within⟩ := reached_within h
  obtain ⟨ids, hids⟩ := containing_total s.shape focused
  have hquery : (query fun g => containingFrom g g.climb focused).run g = .ok ids g := query_ok hids
  obtain ⟨changed, v, hrun⟩ : ∃ changed v, (popoverFocusMoved focused).run g = .ok changed v := by
    refine ⟨(focusWithin g.presents ids g.interaction).2,
      withInteraction g (focusWithin g.presents ids g.interaction).1, ?_⟩
    simp only [popoverFocusMoved, bind_ok, get_ok]
    exact ⟨g, g, ⟨rfl, rfl⟩, ids, g, hquery, interact_ok.mpr ⟨rfl, rfl⟩⟩
  refine ⟨changed, v, hrun, ?_⟩
  simp only [focus_moved within hrun]
  constructor
  · intro exact x hx p above hpresents
    obtain ⟨-, y, hy, ordinarily⟩ := (exact p).mpr ⟨hpresents, x, hx, above⟩
    rwa [Option.mem_unique hx hy]
  · intro ordinary p
    refine and_congr_right fun hpresents => exists_congr fun x => and_congr_right fun hx => ?_
    exact ⟨above_of_ordinary, fun above => ordinary x hx p above hpresents⟩

end Exactness

section Columns

theorem calling_step {g : MountedGraph ℕ} (event : Event ℕ)
    (h : (answer ((call .sorted event).run g)).isOk = true) :
    (calling ℕ).Step g event (afterEvent g event) := by
  obtain ⟨⟨⟩, ha⟩ := answer_is_ok h
  exact ⟨.sorted, ha⟩

theorem focus_in_plain_popover : ∃ g : MountedGraph ℕ, Reachable (calling ℕ) g ∧
    ∃ changed v, (popoverFocusMoved (some 2)).run g = .ok changed v ∧
      ((∀ p, p ∈ v.interaction.popovers.focusWithin ↔
          g.presents p = true ∧ ∃ x ∈ some 2, Above g x p) ↔
        ∀ x ∈ some 2, ∀ p, Above g x p → g.presents p = true → OrdinarilyAbove g x p) := by
  have reached : Reachable (calling ℕ) (afterEvent .empty (.patch plainPopover)) :=
    reachable_step (reachable_initial _) (calling_step _ (by decide +kernel))
  exact ⟨_, reached, focus_within_exact reached (some 2)⟩

def columnInPopover : Patch ℕ := .mount 1
  [⟨1, .popover "more" 0 false false [] 0, [2, 5]⟩, ⟨2, .keyedColumn "" 0 [7], [3]⟩,
    ⟨3, .boundary 5, [4]⟩, ⟨4, .button "open" true false false, []⟩, ⟨5, .text, []⟩]

theorem focus_moved_in_column : ∃ g v : MountedGraph ℕ, Reachable (calling ℕ) g ∧
    (∃ changed, (popoverFocusMoved (some 4)).run g = .ok changed v) ∧
    1 ∉ v.interaction.popovers.focusWithin ∧ g.presents 1 = true ∧ Above g 4 1 := by
  have reached : Reachable (calling ℕ) (afterEvent .empty (.patch columnInPopover)) :=
    reachable_step (reachable_initial _) (calling_step _ (by decide +kernel))
  have moved : (answer ((popoverFocusMoved (some 4)).run
      (afterEvent .empty (.patch columnInPopover)))).isOk = true := by decide +kernel
  have outside : 1 ∉ (after ((popoverFocusMoved (some 4)).run
      (afterEvent .empty (.patch columnInPopover)))).interaction.popovers.focusWithin := by
    decide +kernel
  have presents : (afterEvent .empty (.patch columnInPopover)).presents 1 = true := by decide +kernel
  have button : ((afterEvent .empty (.patch columnInPopover)).parentLocation 4).map (·.parent) =
      some 3 := by decide +kernel
  have item : ((afterEvent .empty (.patch columnInPopover)).parentLocation 3).map (·.parent) =
      some 2 := by decide +kernel
  have column : ((afterEvent .empty (.patch columnInPopover)).parentLocation 2).map (·.parent) =
      some 1 := by decide +kernel
  generalize afterEvent .empty (.patch columnInPopover) = g at *
  obtain ⟨changed, hrun⟩ := answer_is_ok moved
  exact ⟨g, _, reached, ⟨changed, hrun⟩, outside, presents,
    .head button (.head item (.head column .refl))⟩

/-- Focus on the button of the item is not within the popover. -/
theorem focus_in_column : ¬∀ g : MountedGraph ℕ, Reachable (calling ℕ) g → ∀ focused changed v,
    (popoverFocusMoved focused).run g = .ok changed v → ∀ p,
      p ∈ v.interaction.popovers.focusWithin ↔
        g.presents p = true ∧ ∃ x ∈ focused, Above g x p := by
  intro claim
  obtain ⟨g, v, reached, ⟨changed, hrun⟩, outside, presents, above⟩ := focus_moved_in_column
  exact outside ((claim g reached _ changed v hrun 1).mpr ⟨presents, 4, rfl, above⟩)

end Columns

end FocusWithin
