import RocGui.TextInputs
import RocGui.Transitions

/-! Edits that wait for their turns, and the value the application holds meanwhile. -/
namespace TextSettlements

open TextFormats TextInputs Transitions

structure SettleState where
  input : TextInput
  /-- The edits that were committed, each until its turn. -/
  waiting : List Text
  /-- A turn changed the content while an edit made after its own was waiting. -/
  overwritten : Bool

inductive SettleEvent (Pixels : Type) where
  /-- The person, the input method or the window. -/
  | edit (e : TextEvent Pixels)
  /-- Another turn. -/
  | configure (value placeholder : Text) (enabled : Bool)
  /-- The turn of the edit that has waited longest. -/
  | settle (value placeholder : Text) (enabled : Bool)

section Runs

variable {Pixels : Type} (graphemes : Text → List ℕ) (closest : Text → Pixels → ℕ)

/-- What the application does to the input is left to the turns. -/
def Personal : TextEvent Pixels → Prop
  | .configure .. | .beginAcknowledgement _ | .acknowledge _ => False
  | _ => True

def turn (input : TextInput) (submitted value placeholder : Text) (enabled : Bool) : TextInput :=
  acknowledge (configure (beginAcknowledgement input submitted) value placeholder enabled) submitted

def next (s : SettleState) : SettleEvent Pixels → Option SettleState
  | .edit e => (step graphemes closest s.input e).map fun (input, change) =>
      { s with input := input, waiting := s.waiting ++ change.toList }
  | .configure value placeholder enabled =>
    some { s with input := configure s.input value placeholder enabled }
  | .settle value placeholder enabled => match s.waiting with
    | [] => none
    | submitted :: rest =>
      let input := turn s.input submitted value placeholder enabled
      some ⟨input, rest, s.overwritten || (!rest.isEmpty && decide (input.content ≠ s.input.content))⟩

def Permitted : SettleEvent Pixels → Prop
  | .edit e => Personal e ∧ Allowed e
  | .configure value .. | .settle value .. => byteLength value ≤ maxTextBytes

def settleSystem (value placeholder : Text) (enabled : Bool) :
    System SettleState (SettleEvent Pixels) where
  initial := ⟨new value placeholder enabled, [], false⟩
  Step s e t := Permitted e ∧ next graphemes closest s e = some t

end Runs

section Conditions

variable {Pixels : Type} (s : SettleState)

/-- A turn does not meet its own text again while later edits wait, unless the application holds
it; the last turn finds its text on display, or the application's; and a preedit that is taken
back leaves the application's. -/
def Calm (s : SettleState) : SettleEvent Pixels → Prop
  | .settle value _ _ => match s.waiting with
    | [] => True
    | [submitted] => s.input.marked = none → s.input.content = submitted ∨ s.input.content = value
    | submitted :: _ :: _ => s.input.content = submitted →
        value = submitted ∨ value = s.input.controlled ∧ s.input.marked.isSome = true
  | .edit (.replaceAndMarkTextInRange range [] _) => s.waiting = [] → s.input.enabled = true →
      splice s.input (replaced s.input range) [] = some s.input.controlled
  | _ => True

/-- The controlled value is on display once no edit waits. -/
structure Settled (s : SettleState) : Prop where
  shown : s.waiting = [] → s.input.marked = none → s.input.content = s.input.controlled
  kept : s.overwritten = false
  idle : s.input.inFlightEdit = none

end Conditions

section Inputs

variable {s : TextInput} {Pixels : Type} {graphemes : Text → List ℕ} {closest : Text → Pixels → ℕ}

/-- What only turns change. -/
structure SameTurn (s s' : TextInput) : Prop where
  controlled : s'.controlled = s.controlled
  inFlightEdit : s'.inFlightEdit = s.inFlightEdit

/-- The input has the same texts as before, and the same preedit. -/
structure SameTexts (s s' : TextInput) : Prop where
  content : s'.content = s.content
  marked : s'.marked = s.marked
  turn : SameTurn s s'

theorem same_texts_refl (s : TextInput) : SameTexts s s := ⟨rfl, rfl, rfl, rfl⟩

theorem replaceTextInRange_cases {range : Option Range} {text : Text} {s' : TextInput} {change : Option Text}
    (h : replaceTextInRange s range text = some (s', change)) :
    SameTexts s s' ∧ change = none ∨
      change = some s'.content ∧ s'.marked = none ∧ SameTurn s s' := by
  unfold replaceTextInRange at h
  split at h
  · cases h
    exact .inl ⟨same_texts_refl s, rfl⟩
  · dsimp only at h
    split at h
    · cases h
      exact .inl ⟨same_texts_refl s, rfl⟩
    · obtain ⟨content, -, heq⟩ := Option.map_eq_some_iff.mp h
      cases heq
      exact .inr ⟨rfl, rfl, rfl, rfl⟩

theorem replaceAndMarkTextInRange_cases {range selected : Option Range} {text : Text} {s' : TextInput}
    {change : Option Text} (h : replaceAndMarkTextInRange s range text selected = some (s', change)) :
    change = none ∧ SameTurn s s' ∧
      (SameTexts s s' ∨ s'.marked.isSome = true ∨
        text = [] ∧ s.enabled = true ∧ splice s (replaced s range) [] = some s'.content) := by
  unfold replaceAndMarkTextInRange at h
  split at h
  · cases h
    exact ⟨rfl, ⟨rfl, rfl⟩, .inl (same_texts_refl s)⟩
  · rename_i henabled
    dsimp only at h
    split at h
    · cases h
      exact ⟨rfl, ⟨rfl, rfl⟩, .inl (same_texts_refl s)⟩
    · obtain ⟨content, hsplice, heq⟩ := Option.map_eq_some_iff.mp h
      cases heq
      refine ⟨rfl, ⟨rfl, rfl⟩, .inr ?_⟩
      by_cases htext : text = []
      · subst htext
        exact .inr ⟨rfl, by simpa using henabled, hsplice⟩
      · exact .inl (by simp [htext])

theorem unmarkText_cases (s : TextInput) : unmarkText s = (s, none) ∨
    (unmarkText s).2 = some (unmarkText s).1.content ∧ (unmarkText s).1.marked = none ∧
      SameTurn s (unmarkText s).1 := by
  unfold unmarkText
  split
  · exact .inr ⟨rfl, rfl, rfl, rfl⟩
  · exact .inl rfl

theorem same_texts_selectTo (s : TextInput) (offset : ℕ) : SameTexts s (selectTo s offset) :=
  ⟨rfl, rfl, rfl, rfl⟩

theorem same_texts_setEnabled (s : TextInput) (enabled : Bool) : SameTexts s (setEnabled s enabled) := by
  unfold setEnabled
  split
  · exact same_texts_refl s
  · exact ⟨rfl, rfl, rfl, rfl⟩

theorem same_turn_trans {s' s'' : TextInput} (h : SameTurn s s') (h' : SameTurn s' s'') :
    SameTurn s s'' :=
  ⟨h'.controlled.trans h.controlled, h'.inFlightEdit.trans h.inFlightEdit⟩

theorem same_texts_trans {s' s'' : TextInput} (h : SameTexts s s') (h' : SameTexts s' s'') :
    SameTexts s s'' :=
  ⟨h'.content.trans h.content, h'.marked.trans h.marked, same_turn_trans h.turn h'.turn⟩

theorem step_cases {e : TextEvent Pixels} (personal : Personal e) {s' : TextInput} {change : Option Text}
    (h : step graphemes closest s e = some (s', change)) :
    (SameTexts s s' ∧ change = none) ∨
      (change = some s'.content ∧ s'.marked = none ∧ SameTurn s s') ∨
      change = none ∧ SameTurn s s' ∧ (s'.marked.isSome = true ∨
        ∃ range selected, e = .replaceAndMarkTextInRange range [] selected ∧ s.enabled = true ∧
          splice s (replaced s range) [] = some s'.content) := by
  -- an edit of what a caret key selects first
  have selected {s₁ : TextInput} (same : SameTexts s s₁)
      (h : replaceTextInRange s₁ none [] = some (s', change)) :
      (SameTexts s s' ∧ change = none) ∨
        (change = some s'.content ∧ s'.marked = none ∧ SameTurn s s') := by
    rcases replaceTextInRange_cases h with ⟨hsame, hchange⟩ | ⟨hchange, hmarked, hturn⟩
    · exact .inl ⟨same_texts_trans same hsame, hchange⟩
    · exact .inr ⟨hchange, hmarked, same_turn_trans same.turn hturn⟩
  cases e with
  | configure | beginAcknowledgement | acknowledge => cases personal
  | setEnabled enabled =>
    cases h
    exact .inl ⟨same_texts_setEnabled s enabled, rfl⟩
  | left | right =>
    cases h
    refine .inl ⟨?_, rfl⟩
    first | unfold TextInputs.left | unfold TextInputs.right
    split <;> exact ⟨rfl, rfl, rfl, rfl⟩
  | selectLeft | selectRight | selectAll | home | «end» | mouseUp | repaint =>
    cases h
    exact .inl ⟨⟨rfl, rfl, rfl, rfl⟩, rfl⟩
  | mouseDown position shift =>
    cases h
    refine .inl ⟨?_, rfl⟩
    unfold mouseDown
    split
    · exact same_texts_refl s
    · dsimp only
      split <;> exact ⟨rfl, rfl, rfl, rfl⟩
  | mouseMove position =>
    cases h
    refine .inl ⟨?_, rfl⟩
    unfold mouseMove
    split <;> exact ⟨rfl, rfl, rfl, rfl⟩
  | backspace =>
    change backspace s graphemes = some (s', change) at h
    unfold backspace at h
    split at h
    · cases h
      exact .inl ⟨same_texts_refl s, rfl⟩
    · refine (selected ?_ h).imp_right .inl
      split
      · exact same_texts_selectTo s _
      · exact same_texts_refl s
  | delete =>
    change delete s graphemes = some (s', change) at h
    unfold delete at h
    split at h
    · cases h
      exact .inl ⟨same_texts_refl s, rfl⟩
    · refine (selected ?_ h).imp_right .inl
      split
      · exact same_texts_selectTo s _
      · exact same_texts_refl s
  | unmarkText =>
    have heq : unmarkText s = (s', change) := Option.some.inj h
    rcases unmarkText_cases s with hsame | ⟨hchange, hmarked, hturn⟩
    · cases heq.symm.trans hsame
      exact .inl ⟨same_texts_refl s, rfl⟩
    · rw [heq] at hchange hmarked hturn
      exact .inr (.inl ⟨hchange, hmarked, hturn⟩)
  | replaceTextInRange range text => exact (replaceTextInRange_cases h).imp_right .inl
  | replaceAndMarkTextInRange range text selected =>
    obtain ⟨hchange, hturn, hsame | hmarked | ⟨rfl, henabled, hsplice⟩⟩ :=
      replaceAndMarkTextInRange_cases h
    · exact .inl ⟨hsame, hchange⟩
    · exact .inr (.inr ⟨hchange, hturn, .inl hmarked⟩)
    · exact .inr (.inr ⟨hchange, hturn, .inr ⟨range, selected, rfl, henabled, hsplice⟩⟩)
  | textForRange | selectedTextRange | markedTextRange | characterIndexForPoint =>
    obtain ⟨_, -, heq⟩ := Option.map_eq_some_iff.mp h
    cases heq
    exact .inl ⟨same_texts_refl s, rfl⟩

theorem configure_turn (s : TextInput) (value placeholder : Text) (enabled : Bool) :
    (configure s value placeholder enabled).controlled = value ∧
      (configure s value placeholder enabled).inFlightEdit = s.inFlightEdit := by
  have hturn := (same_texts_setEnabled (setControlled { s with placeholder := placeholder } value) enabled).turn
  have hset : (setControlled { s with placeholder := placeholder } value).controlled = value ∧
      (setControlled { s with placeholder := placeholder } value).inFlightEdit = s.inFlightEdit := by
    unfold setControlled
    split
    · rename_i hcontrolled
      exact ⟨hcontrolled, rfl⟩
    · dsimp only
      split <;> exact ⟨rfl, rfl⟩
  exact ⟨hturn.controlled.trans hset.1, hturn.inFlightEdit.trans hset.2⟩

/-- A value is put on display unless it was told before, or an edit newer than the one in
flight is there. -/
theorem configure_cases (s : TextInput) (value placeholder : Text) (enabled : Bool) :
    ((configure s value placeholder enabled).content = s.content ∧
      (configure s value placeholder enabled).marked = s.marked ∧
        (s.controlled = value ∨ s.content = value ∨
          ∃ submitted, s.inFlightEdit = some submitted ∧ s.content ≠ submitted)) ∨
    (configure s value placeholder enabled).content = value ∧
      (configure s value placeholder enabled).marked = none ∧ s.controlled ≠ value ∧
        ∀ submitted, s.inFlightEdit = some submitted → s.content = submitted := by
  have hset := same_texts_setEnabled (setControlled { s with placeholder := placeholder } value) enabled
  rw [configure, hset.content, hset.marked]
  unfold setControlled
  by_cases hcontrolled : s.controlled = value
  · rw [if_pos hcontrolled]
    exact .inl ⟨rfl, rfl, .inl hcontrolled⟩
  · rw [if_neg hcontrolled]
    dsimp only
    split
    · rename_i hnew
      refine .inr ⟨rfl, rfl, hcontrolled, fun submitted hsubmitted => ?_⟩
      have hnewer := hnew.2
      rw [hsubmitted] at hnewer
      simpa using hnewer
    · rename_i hold
      refine .inl ⟨rfl, rfl, .inr ?_⟩
      by_cases hcontent : s.content = value
      · exact .inl hcontent
      · cases hflight : s.inFlightEdit with
        | none => exact absurd ⟨hcontent, by rw [hflight]; rfl⟩ hold
        | some submitted =>
          refine .inr ⟨submitted, rfl, fun heq => hold ⟨hcontent, ?_⟩⟩
          rw [hflight]
          simp [heq]

theorem turn_cases (s : TextInput) (submitted value placeholder : Text) (enabled : Bool) :
    ((turn s submitted value placeholder enabled).content = s.content ∧
      (turn s submitted value placeholder enabled).marked = s.marked ∧
        (s.content = submitted → s.marked = none → s.content = value)) ∨
    s.content = submitted ∧ (turn s submitted value placeholder enabled).content = value ∧
      (s.marked = none ∨ s.controlled ≠ value) := by
  have hconfigured := configure_cases (beginAcknowledgement s submitted) value placeholder enabled
  have hcontrolled := (configure_turn (beginAcknowledgement s submitted) value placeholder enabled).1
  unfold turn acknowledge
  generalize configure (beginAcknowledgement s submitted) value placeholder enabled = configured
    at hconfigured hcontrolled
  dsimp only
  split
  · rename_i hleft
    rcases hconfigured with ⟨hcontent, hmarked, -⟩ | ⟨hcontent, hmarked, hnew, howned⟩
    · refine .inl ⟨hcontent, hmarked, fun hsubmitted hunmarked => ?_⟩
      rcases hleft with hpreedit | hnewer
      · rw [hmarked, show (beginAcknowledgement s submitted).marked = none from hunmarked] at hpreedit
        cases hpreedit
      · exact absurd (hcontent.trans hsubmitted) hnewer
    · exact .inr ⟨howned submitted rfl, hcontent, .inr hnew⟩
  · rename_i hown
    obtain ⟨hunmarked, hsubmitted⟩ := not_or.mp hown
    rw [Option.not_isSome_iff_eq_none] at hunmarked
    rw [not_not] at hsubmitted
    split
    · rename_i hshown
      rw [hcontrolled] at hshown
      rcases hconfigured with ⟨hcontent, hmarked, -⟩ | ⟨hcontent, -, hnew, howned⟩
      · exact .inl ⟨hcontent, hmarked, fun _ _ => hcontent.symm.trans hshown⟩
      · exact .inr ⟨howned submitted rfl, hcontent, .inr hnew⟩
    · rcases hconfigured with ⟨hcontent, hmarked, -⟩ | ⟨-, -, hnew, howned⟩
      · exact .inr ⟨hcontent.symm.trans hsubmitted, hcontrolled, .inl (hmarked.symm.trans hunmarked)⟩
      · exact .inr ⟨howned submitted rfl, hcontrolled, .inr hnew⟩

theorem turn_turn (s : TextInput) (submitted value placeholder : Text) (enabled : Bool) :
    (turn s submitted value placeholder enabled).controlled = value ∧
      (turn s submitted value placeholder enabled).inFlightEdit = none := by
  have hcontrolled := (configure_turn (beginAcknowledgement s submitted) value placeholder enabled).1
  unfold turn acknowledge
  dsimp only
  split
  · exact ⟨hcontrolled, rfl⟩
  · split <;> exact ⟨hcontrolled, rfl⟩

end Inputs

section Settlements

variable {Pixels : Type} {graphemes : Text → List ℕ} {closest : Text → Pixels → ℕ}
  {s t : SettleState} {e : SettleEvent Pixels}

theorem settled_edit (settled : Settled s) {e : TextEvent Pixels} (personal : Personal e)
    (calm : Calm s (.edit e)) (h : next graphemes closest s (.edit e) = some t) : Settled t := by
  obtain ⟨⟨input, change⟩, hstep, rfl⟩ := Option.map_eq_some_iff.mp h
  rcases step_cases personal hstep with ⟨same, rfl⟩ | ⟨rfl, hmarked, hturn⟩ | ⟨rfl, hturn, hpreedit⟩
  · refine ⟨fun hwaiting hmarked => ?_, settled.kept, same.turn.inFlightEdit.trans settled.idle⟩
    change s.waiting ++ [] = [] at hwaiting
    rw [List.append_nil] at hwaiting
    have hshown := settled.shown hwaiting (same.marked.symm.trans hmarked)
    exact same.content.trans (hshown.trans same.turn.controlled.symm)
  · refine ⟨fun hwaiting => ?_, settled.kept, hturn.inFlightEdit.trans settled.idle⟩
    exact absurd hwaiting (by simp)
  · refine ⟨fun hwaiting hmarked => ?_, settled.kept, hturn.inFlightEdit.trans settled.idle⟩
    change s.waiting ++ [] = [] at hwaiting
    rw [List.append_nil] at hwaiting
    rcases hpreedit with hsome | ⟨range, selected, rfl, henabled, hsplice⟩
    · rw [show input.marked = none from hmarked] at hsome
      cases hsome
    · have hleft := calm hwaiting henabled
      exact (Option.some.inj (hsplice.symm.trans hleft)).trans hturn.controlled.symm

theorem settled_configure (settled : Settled s) (value placeholder : Text) (enabled : Bool) :
    Settled { s with input := configure s.input value placeholder enabled } := by
  obtain ⟨hcontrolled, hflight⟩ := configure_turn s.input value placeholder enabled
  refine ⟨fun hwaiting hmarked => ?_, settled.kept, hflight.trans settled.idle⟩
  dsimp only
  rw [hcontrolled]
  rcases configure_cases s.input value placeholder enabled with
    ⟨hcontent, hsame, hold | hshown | ⟨submitted, hsubmitted, -⟩⟩ | ⟨hcontent, -⟩
  · have hshown := settled.shown hwaiting (hsame.symm.trans hmarked)
    exact hcontent.trans (hshown.trans hold)
  · exact hcontent.trans hshown
  · rw [settled.idle] at hsubmitted
    cases hsubmitted
  · exact hcontent

theorem settled_settle (settled : Settled s) {value placeholder : Text} {enabled : Bool}
    (calm : Calm s (.settle value placeholder enabled : SettleEvent Pixels))
    (h : next graphemes closest s (.settle value placeholder enabled) = some t) : Settled t := by
  obtain ⟨input, waiting, overwritten⟩ := s
  match waiting with
  | [] => cases h
  | [submitted] =>
    obtain rfl := Option.some.inj h
    obtain ⟨hcontrolled, hflight⟩ := turn_turn input submitted value placeholder enabled
    refine ⟨fun _ hmarked => ?_, ?_, hflight⟩
    · dsimp only
      rw [hcontrolled]
      rcases turn_cases input submitted value placeholder enabled with
        ⟨hcontent, hsame, hown⟩ | ⟨-, hcontent, -⟩
      · have hunmarked := hsame.symm.trans hmarked
        rcases calm hunmarked with hsubmitted | hshown
        · exact hcontent.trans (hown hsubmitted hunmarked)
        · exact hcontent.trans hshown
      · exact hcontent
    · exact (Bool.or_false _).trans settled.kept
  | submitted :: later :: rest =>
    obtain rfl := Option.some.inj h
    refine ⟨nofun, ?_, (turn_turn input submitted value placeholder enabled).2⟩
    have hcontent : (turn input submitted value placeholder enabled).content = input.content := by
      rcases turn_cases input submitted value placeholder enabled with
        ⟨hcontent, -⟩ | ⟨hsubmitted, hcontent, hput⟩
      · exact hcontent
      · rcases calm hsubmitted with hvalue | ⟨hvalue, hpreedit⟩
        · exact hcontent.trans (hvalue.trans hsubmitted.symm)
        · rcases hput with hunmarked | hnew
          · rw [show input.marked = none from hunmarked] at hpreedit
            cases hpreedit
          · exact absurd hvalue.symm hnew
    have hkept : overwritten = false := settled.kept
    simp [hcontent, hkept]

theorem settled_step (settled : Settled s) (permitted : Permitted e) (calm : Calm s e)
    (h : next graphemes closest s e = some t) : Settled t := by
  cases e with
  | edit e => exact settled_edit settled permitted.1 calm h
  | configure value placeholder enabled =>
    obtain rfl := Option.some.inj h
    exact settled_configure settled value placeholder enabled
  | settle value placeholder enabled => exact settled_settle settled calm h

/-- No turn overwrites an edit that still waits, and the controlled value is on display when
none does. -/
theorem edits_settle {value placeholder : Text} {enabled : Bool}
    (h : Reachable ((settleSystem graphemes closest value placeholder enabled).restrict Calm) s) :
    s.overwritten = false ∧
      (s.waiting = [] → s.input.marked = none → s.input.content = s.input.controlled) := by
  have settled : Settled s := by
    refine reachable_invariant (S := (settleSystem graphemes closest value placeholder enabled).restrict
      Calm) ?_ ?_ h
    · exact ⟨fun _ _ => rfl, rfl, rfl⟩
    · rintro s e t settled ⟨calm, permitted, hnext⟩
      exact settled_step settled permitted calm hnext
  exact ⟨settled.kept, settled.shown⟩

end Settlements

section Examples

def types (text : Text) : SettleEvent Unit := .edit (.replaceTextInRange none text)

def turnTo (value : Text) : SettleEvent Unit := .settle value [] true

abbrev letters : System SettleState (SettleEvent Unit) :=
  settleSystem (fun _ => []) (fun _ _ => 0) [] [] true

def after (events : List (SettleEvent Unit)) : SettleState :=
  events.foldl (fun s e => (next (fun _ => []) (fun _ _ => 0) s e).getD s) letters.initial

def typedAhead : List (SettleEvent Unit) := [types ['a'], types ['b']]

def erased : List (SettleEvent Unit) :=
  typedAhead ++ [.edit (.replaceTextInRange (some ⟨1, 2⟩) [])]

theorem typedAhead_reachable :
    Reachable (letters.restrict Calm) (after typedAhead) := by
  have first : (letters.restrict Calm).Step letters.initial (types ['a']) (after [types ['a']]) :=
    ⟨trivial, ⟨trivial, nofun⟩, rfl⟩
  have second : (letters.restrict Calm).Step (after [types ['a']]) (types ['b']) (after typedAhead) :=
    ⟨trivial, ⟨trivial, nofun⟩, rfl⟩
  exact reachable_step (reachable_step (reachable_initial _) first) second

theorem typed_ahead_settles :
    (after (typedAhead ++ [turnTo [], turnTo ['a', 'b']])).overwritten = false ∧
      ((after (typedAhead ++ [turnTo [], turnTo ['a', 'b']])).waiting = [] →
        (after (typedAhead ++ [turnTo [], turnTo ['a', 'b']])).input.marked = none →
          (after (typedAhead ++ [turnTo [], turnTo ['a', 'b']])).input.content =
            (after (typedAhead ++ [turnTo [], turnTo ['a', 'b']])).input.controlled) := by
  have rejects : (letters.restrict Calm).Step (after typedAhead) (turnTo [])
      (after (typedAhead ++ [turnTo []])) :=
    ⟨fun hshown => absurd hshown (by decide), Nat.zero_le _, rfl⟩
  have accepts : (letters.restrict Calm).Step (after (typedAhead ++ [turnTo []])) (turnTo ['a', 'b'])
      (after (typedAhead ++ [turnTo [], turnTo ['a', 'b']])) :=
    ⟨fun _ => .inl rfl, show 2 ≤ maxTextBytes by decide, rfl⟩
  exact edits_settle (reachable_step (reachable_step typedAhead_reachable rejects) accepts)

theorem rejected_turn_overwrites_an_equal_edit :
    (¬∀ s, Reachable letters s → s.overwritten = false) ∧
      ¬∀ s, Reachable letters s →
        s.waiting = [] → s.input.marked = none → s.input.content = s.input.controlled := by
  have erases : letters.Step (after typedAhead) (.edit (.replaceTextInRange (some ⟨1, 2⟩) []))
      (after erased) := by
    refine ⟨⟨trivial, fun r hr => ?_⟩, rfl⟩
    cases hr
    decide
  have rejects : letters.Step (after erased) (turnTo []) (after (erased ++ [turnTo []])) :=
    ⟨Nat.zero_le _, rfl⟩
  have accepts : letters.Step (after (erased ++ [turnTo []])) (turnTo ['a', 'b'])
      (after (erased ++ [turnTo [], turnTo ['a', 'b']])) :=
    ⟨show 2 ≤ maxTextBytes by decide, rfl⟩
  have acceptsAgain : letters.Step (after (erased ++ [turnTo [], turnTo ['a', 'b']])) (turnTo ['a'])
      (after (erased ++ [turnTo [], turnTo ['a', 'b'], turnTo ['a']])) :=
    ⟨show 1 ≤ maxTextBytes by decide, rfl⟩
  have rejected : Reachable letters (after (erased ++ [turnTo []])) :=
    reachable_step (reachable_step (reachable_of_restrict typedAhead_reachable) erases) rejects
  have settled : Reachable letters (after (erased ++ [turnTo [], turnTo ['a', 'b'], turnTo ['a']])) :=
    reachable_step (reachable_step rejected accepts) acceptsAgain
  constructor
  · intro h
    exact absurd (h _ rejected) (by decide)
  · intro h
    exact absurd (h _ settled (by decide) (by decide)) (by decide)

end Examples

end TextSettlements
