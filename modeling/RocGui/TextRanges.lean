import RocGui.TextInputs
import RocGui.Transitions

/-! The ranges of a text input over every order of its events. -/
namespace TextRanges

open TextFormats TextInputs Transitions

section Boundaries

variable {text front back : Text} {i j : ℕ}

def Boundary (text : Text) (i : ℕ) : Prop := ∃ front back, text = front ++ back ∧ byteLength front = i

theorem byteLength_append (front back : Text) :
    byteLength (front ++ back) = byteLength front + byteLength back := by
  simp [byteLength]

theorem byteLength_cons (ch : Char) (text : Text) :
    byteLength (ch :: text) = ch.utf8Size + byteLength text := rfl

theorem byteLength_pos (text : Text) (ch : Char) : 0 < byteLength (ch :: text) :=
  Nat.lt_of_lt_of_le ch.utf8Size_pos (Nat.le_add_right _ _)

theorem boundary_zero (text : Text) : Boundary text 0 := ⟨[], text, rfl, rfl⟩

theorem boundary_end (text : Text) : Boundary text (byteLength text) :=
  ⟨text, [], (List.append_nil text).symm, rfl⟩

theorem boundary_le (h : Boundary text i) : i ≤ byteLength text := by
  obtain ⟨front, back, rfl, rfl⟩ := h
  rw [byteLength_append]
  exact Nat.le_add_right _ _

theorem boundary_shift (h : Boundary text i) (front back : Text) :
    Boundary (front ++ text ++ back) (byteLength front + i) := by
  obtain ⟨before, after, rfl, rfl⟩ := h
  exact ⟨front ++ before, after ++ back, by simp, byteLength_append _ _⟩

theorem boundary_cons {ch : Char} (h : Boundary text i) : Boundary (ch :: text) (ch.utf8Size + i) := by
  obtain ⟨front, back, rfl, rfl⟩ := h
  exact ⟨ch :: front, back, rfl, rfl⟩

theorem cut_front (front back : Text) : cut (front ++ back) (byteLength front) = some (front, back) := by
  induction front with
  | nil => cases back <;> rfl
  | cons ch front ih =>
    obtain ⟨n, hn⟩ : ∃ n, byteLength (ch :: front) = n + 1 := Nat.exists_eq_add_one.mpr (byteLength_pos front ch)
    have hsize : ch.utf8Size ≤ n + 1 := by
      rw [← hn]
      exact Nat.le_add_right _ _
    have hrest : n + 1 - ch.utf8Size = byteLength front := by
      rw [← hn, byteLength_cons, Nat.add_sub_cancel_left]
    rw [hn, List.cons_append, cut, if_pos hsize, hrest, ih]
    rfl

theorem cut_boundary (h : Boundary text i) : ∃ front back, cut text i = some (front, back) ∧
    text = front ++ back ∧ byteLength front = i := by
  obtain ⟨front, back, rfl, rfl⟩ := h
  exact ⟨front, back, cut_front front back, rfl, rfl⟩

theorem utf16Offset_boundary (text : Text) (offset : ℕ) : Boundary text (utf16Offset text offset) := by
  induction text generalizing offset with
  | nil => cases offset <;> exact boundary_zero []
  | cons ch text ih =>
    cases offset with
    | zero => exact boundary_zero _
    | succ offset => exact boundary_cons (ih _)

theorem utf16Offset_mono (text : Text) {a b : ℕ} (h : a ≤ b) : utf16Offset text a ≤ utf16Offset text b := by
  induction text generalizing a b with
  | nil => cases a <;> cases b <;> exact Nat.le_refl 0
  | cons ch text ih =>
    cases a with
    | zero => exact Nat.zero_le _
    | succ a =>
      cases b with
      | zero => omega
      | succ b => exact Nat.add_le_add_left (ih (by omega)) _

end Boundaries

section Ranges

structure Within (text : Text) (range : Range) : Prop where
  ordered : range.start ≤ range.end
  start : Boundary text range.start
  stop : Boundary text range.end

structure Valid (s : TextInput) : Prop where
  bounded : byteLength s.content ≤ maxTextBytes
  controlled : byteLength s.controlled ≤ maxTextBytes
  selection : Within s.content s.selection
  marked : ∀ range, s.marked = some range → Within s.content range

variable {s : TextInput} {i : ℕ} {range : Range} {text : Text}

theorem within_caret (h : Boundary text i) : Within text ⟨i, i⟩ := ⟨Nat.le_refl i, h, h⟩

theorem valid_select {s' : TextInput} (valid : Valid s) (hcontent : s'.content = s.content)
    (hcontrolled : s'.controlled = s.controlled) (hmarked : s'.marked = s.marked)
    (h : Within s.content s'.selection) : Valid s' where
  bounded := hcontent ▸ valid.bounded
  controlled := hcontrolled ▸ valid.controlled
  selection := by rwa [hcontent]
  marked range hrange := by
    rw [hmarked] at hrange
    rw [hcontent]
    exact valid.marked range hrange

theorem valid_moveTo (valid : Valid s) (h : Boundary s.content i) : Valid (moveTo s i) :=
  valid_select valid rfl rfl rfl (within_caret h)

theorem valid_selectTo (valid : Valid s) (h : Boundary s.content i) : Valid (selectTo s i) := by
  have anchored (anchor : ℕ) (hanchor : Boundary s.content anchor) :
      Within s.content ⟨min anchor i, max anchor i⟩ := by
    refine ⟨?_, ?_, ?_⟩
    · change min anchor i ≤ max anchor i
      omega
    · by_cases hle : anchor ≤ i
      · rwa [Nat.min_eq_left hle]
      · rwa [Nat.min_eq_right (by omega)]
    · by_cases hle : anchor ≤ i
      · rwa [Nat.max_eq_right hle]
      · rwa [Nat.max_eq_left (by omega)]
  refine valid_select valid rfl rfl rfl (anchored _ ?_)
  split
  · exact valid.selection.stop
  · exact valid.selection.start

theorem boundary_cursor (valid : Valid s) : Boundary s.content (cursor s) := by
  unfold cursor
  split
  · exact valid.selection.start
  · exact valid.selection.stop

theorem within_replaced (valid : Valid s) (named : Option Range)
    (hordered : ∀ range, named = some range → range.start ≤ range.end) :
    Within s.content (replaced s named) := by
  cases named with
  | some range =>
    exact ⟨utf16Offset_mono _ (hordered range rfl), utf16Offset_boundary _ _, utf16Offset_boundary _ _⟩
  | none =>
    change Within s.content (s.marked.getD s.selection)
    cases hmarked : s.marked with
    | none => exact valid.selection
    | some range => exact valid.marked range hmarked

theorem within_cut (h : Within text range) : ∃ front middle back, text = front ++ middle ++ back ∧
    byteLength front = range.start ∧ byteLength (front ++ middle) = range.end := by
  obtain ⟨front, rest, hfront, hstart⟩ := h.start
  obtain ⟨whole, back, hwhole, hstop⟩ := h.stop
  rcases List.append_eq_append_iff.mp (hfront.symm.trans hwhole) with
    ⟨middle, rfl, -⟩ | ⟨extra, rfl, -⟩
  · exact ⟨front, middle, back, hwhole, hstart, hstop⟩
  · -- the range is in order, so that nothing is between its end and its start
    have hlen := h.ordered
    rw [← hstart, ← hstop, byteLength_append] at hlen
    cases extra with
    | nil => exact ⟨whole, [], back, by simpa using hwhole, by simpa using hstart, by simpa using hstop⟩
    | cons ch extra =>
      have := byteLength_pos extra ch
      omega

theorem splice_within (h : Within s.content range) (text : Text) :
    ∃ front middle back, s.content = front ++ middle ++ back ∧ byteLength front = range.start ∧
      byteLength middle = range.len ∧ splice s range text = some (front ++ text ++ back) := by
  obtain ⟨front, middle, back, hcontent, hstart, hstop⟩ := within_cut h
  refine ⟨front, middle, back, hcontent, hstart, ?_, ?_⟩
  · rw [Range.len, ← hstart, ← hstop, byteLength_append, Nat.add_sub_cancel_left]
  · have hcut : cut s.content range.start = some (front, middle ++ back) := by
      rw [hcontent, List.append_assoc, ← hstart]
      exact cut_front _ _
    have hcut' : cut s.content range.end = some (front ++ middle, back) := by
      rw [hcontent, ← hstop]
      exact cut_front _ _
    rw [splice, hcut, hcut']
    rfl

theorem bounded_splice {front middle back : Text} (hcontent : s.content = front ++ middle ++ back)
    (hlen : byteLength middle = range.len) (hrefuses : refuses s range text = false) :
    byteLength (front ++ text ++ back) ≤ maxTextBytes ∨ maxTextBytes < byteLength s.content := by
  have hfits : ¬maxTextBytes - (byteLength s.content - range.len) < byteLength text := by
    intro h
    simp [refuses, h] at hrefuses
  rw [hcontent, byteLength_append, byteLength_append] at hfits ⊢
  rw [byteLength_append, byteLength_append]
  omega

theorem toUtf16_boundary (h : Boundary s.content i) : ∃ units, toUtf16 s i = some units := by
  obtain ⟨front, back, hcut, -, -⟩ := cut_boundary h
  exact ⟨utf16Length front, by rw [toUtf16, hcut]; rfl⟩

end Ranges

section Operations

variable {s : TextInput} {range : Range} {text : Text}

theorem valid_setEnabled (valid : Valid s) (enabled : Bool) : Valid (setEnabled s enabled) := by
  unfold setEnabled
  split
  · exact valid
  · exact ⟨valid.bounded, valid.controlled, valid.selection, valid.marked⟩

theorem valid_setControlled (valid : Valid s) {value : Text} (hvalue : byteLength value ≤ maxTextBytes) :
    Valid (setControlled s value) := by
  unfold setControlled
  split
  · exact valid
  · dsimp only
    split
    · exact ⟨hvalue, hvalue, within_caret (boundary_end _), nofun⟩
    · exact ⟨valid.bounded, hvalue, valid.selection, valid.marked⟩

theorem valid_configure (valid : Valid s) {value placeholder : Text} {enabled : Bool}
    (hvalue : byteLength value ≤ maxTextBytes) : Valid (configure s value placeholder enabled) := by
  have shown : Valid { s with placeholder := placeholder } :=
    ⟨valid.bounded, valid.controlled, valid.selection, valid.marked⟩
  exact valid_setEnabled (valid_setControlled shown hvalue) enabled

theorem valid_acknowledge (valid : Valid s) (submitted : Text) : Valid (acknowledge s submitted) := by
  have settled : Valid { s with inFlightEdit := none } :=
    ⟨valid.bounded, valid.controlled, valid.selection, valid.marked⟩
  unfold acknowledge
  dsimp only
  split
  · exact settled
  · rename_i hunmarked
    rw [not_or] at hunmarked
    split
    · exact settled
    · refine ⟨valid.controlled, valid.controlled, within_caret (boundary_end _), fun range hrange => ?_⟩
      exact absurd (Option.isSome_iff_exists.mpr ⟨range, hrange⟩) hunmarked.1

theorem splice_cases (valid : Valid s) (h : Within s.content range) (text : Text) :
    refuses s range text = true ∨ ∃ front back, refuses s range text = false ∧
      splice s range text = some (front ++ text ++ back) ∧ byteLength front = range.start ∧
        byteLength (front ++ text ++ back) ≤ maxTextBytes := by
  cases hrefuses : refuses s range text with
  | true => exact .inl rfl
  | false =>
    obtain ⟨front, middle, back, hcontent, hstart, hlen, hsplice⟩ := splice_within h text
    refine .inr ⟨front, back, rfl, hsplice, hstart, ?_⟩
    rcases bounded_splice hcontent hlen hrefuses with hbounded | hbounded
    · exact hbounded
    · exact absurd valid.bounded (by omega)

theorem valid_replaceTextInRange (valid : Valid s) {named : Option Range}
    (hordered : ∀ r, named = some r → r.start ≤ r.end) (text : Text) :
    ∃ s' change, replaceTextInRange s named text = some (s', change) ∧ Valid s' := by
  unfold replaceTextInRange
  by_cases henabled : s.enabled = true
  · rw [if_neg (by simp [henabled])]
    rcases splice_cases valid (within_replaced valid named hordered) text with
      hrefuses | ⟨front, back, hrefuses, hsplice, hstart, hbounded⟩
    · exact ⟨s, none, if_pos hrefuses, valid⟩
    · dsimp only
      rw [if_neg (by simp [hrefuses]), hsplice]
      refine ⟨_, _, rfl, ⟨hbounded, valid.controlled, within_caret ?_, nofun⟩⟩
      rw [← hstart]
      exact boundary_shift (boundary_end text) front back
  · exact ⟨s, none, if_pos (by simp [henabled]), valid⟩

theorem valid_replaceAndMarkTextInRange (valid : Valid s) {named selected : Option Range}
    (hordered : ∀ r, named = some r → r.start ≤ r.end)
    (hselected : ∀ r, selected = some r → r.start ≤ r.end) (text : Text) :
    ∃ s' change, replaceAndMarkTextInRange s named text selected = some (s', change) ∧ Valid s' := by
  unfold replaceAndMarkTextInRange
  by_cases henabled : s.enabled = true
  · rw [if_neg (by simp [henabled])]
    rcases splice_cases valid (within_replaced valid named hordered) text with
      hrefuses | ⟨front, back, hrefuses, hsplice, hstart, hbounded⟩
    · exact ⟨s, none, if_pos hrefuses, valid⟩
    · dsimp only
      rw [if_neg (by simp [hrefuses]), hsplice]
      have before : Boundary (front ++ text ++ back) (byteLength front) := by
        have h := boundary_shift (boundary_zero text) front back
        rwa [Nat.add_zero] at h
      have after : Boundary (front ++ text ++ back) (byteLength front + byteLength text) :=
        boundary_shift (boundary_end text) front back
      refine ⟨_, _, rfl, ⟨hbounded, valid.controlled, ?_, fun range hrange => ?_⟩⟩
      · dsimp only
        rw [← hstart]
        cases selected with
        | none => exact within_caret after
        | some r =>
          exact ⟨Nat.add_le_add_left (utf16Offset_mono text (hselected r rfl)) _,
            boundary_shift (utf16Offset_boundary text _) front back,
            boundary_shift (utf16Offset_boundary text _) front back⟩
      · dsimp only at hrange
        obtain ⟨-, hrange⟩ := Option.ite_none_left_eq_some.mp hrange
        obtain rfl := Option.some.inj hrange
        rw [← hstart]
        exact ⟨Nat.le_add_right _ _, before, after⟩
  · exact ⟨s, none, if_pos (by simp [henabled]), valid⟩

theorem valid_unmarkText (valid : Valid s) : Valid (unmarkText s).1 := by
  unfold unmarkText
  split
  · exact ⟨valid.bounded, valid.controlled, valid.selection, nofun⟩
  · exact valid

theorem rangeToUtf16_within (h : Within s.content range) : ∃ r, rangeToUtf16 s range = some r := by
  obtain ⟨start, hstart⟩ := toUtf16_boundary h.start
  obtain ⟨stop, hstop⟩ := toUtf16_boundary h.stop
  exact ⟨⟨start, stop⟩, by rw [rangeToUtf16, hstart, hstop]; rfl⟩

theorem textForRange_ordered (h : range.start ≤ range.end) : ∃ answer, textForRange s range = some answer := by
  have within : Within s.content
      ⟨utf16Offset s.content range.start, utf16Offset s.content range.end⟩ :=
    ⟨utf16Offset_mono _ h, utf16Offset_boundary _ _, utf16Offset_boundary _ _⟩
  obtain ⟨start, hstart⟩ := toUtf16_boundary within.start
  obtain ⟨stop, hstop⟩ := toUtf16_boundary within.stop
  obtain ⟨front, middle, back, hcontent, hfront, hwhole⟩ := within_cut within
  dsimp only at hstart hstop hfront hwhole
  have hcut : cut s.content (utf16Offset s.content range.end) = some (front ++ middle, back) := by
    rw [← hwhole, hcontent]
    exact cut_front _ _
  refine ⟨(⟨start, stop⟩, middle), ?_⟩
  rw [textForRange, hstart, hstop, hcut]
  change (cut (front ++ middle) _).bind _ = _
  rw [← hfront, cut_front]
  rfl

theorem within_selectAll (text : Text) : Within text ⟨0, byteLength text⟩ :=
  ⟨Nat.zero_le _, boundary_zero text, boundary_end text⟩

end Operations

section Runs

variable {Pixels : Type} {graphemes : Text → List ℕ} {closest : Text → Pixels → ℕ} {s : TextInput}

/-- A place of the pointer is at a boundary of the content, and not only of the line that was
painted last. -/
def Aimed (closest : Text → Pixels → ℕ) (s : TextInput) : TextEvent Pixels → Prop
  | .mouseDown position _ => s.enabled = true → Boundary s.content (indexAt closest s position)
  | .mouseMove position => s.selecting = true → Boundary s.content (indexAt closest s position)
  | .characterIndexForPoint position => Boundary s.content (indexAt closest s position)
  | _ => True

def textSystem (graphemes : Text → List ℕ) (closest : Text → Pixels → ℕ) (initial : TextInput) :
    System TextInput (TextEvent Pixels) where
  initial := initial
  Step s e t := Allowed e ∧ ∃ change, step graphemes closest s e = some (t, change)

variable (hgraphemes : ∀ text, ∀ i ∈ graphemes text, Boundary text i)

include hgraphemes in
theorem boundary_previous (offset : ℕ) : Boundary s.content (previous graphemes s offset) := by
  unfold previous
  cases hfind : (graphemes s.content).reverse.find? (· < offset) with
  | none => exact boundary_zero _
  | some i => exact hgraphemes _ i (List.mem_reverse.mp (List.mem_of_find?_eq_some hfind))

include hgraphemes in
theorem boundary_next (offset : ℕ) : Boundary s.content (TextInputs.next graphemes s offset) := by
  unfold TextInputs.next
  cases hfind : (graphemes s.content).find? (offset < ·) with
  | none => exact boundary_end _
  | some i => exact hgraphemes _ i (List.mem_of_find?_eq_some hfind)

theorem valid_mouseDown (valid : Valid s) {position : Pixels} {shift : Bool}
    (aimed : s.enabled = true → Boundary s.content (indexAt closest s position)) :
    Valid (mouseDown closest s position shift) := by
  unfold mouseDown
  by_cases henabled : s.enabled = true
  · rw [if_neg (by simp [henabled])]
    have pressed : Valid { s with selecting := true } :=
      ⟨valid.bounded, valid.controlled, valid.selection, valid.marked⟩
    dsimp only
    split
    · exact valid_selectTo pressed (aimed henabled)
    · exact valid_moveTo pressed (aimed henabled)
  · rw [if_pos (by simp [henabled])]
    exact valid

include hgraphemes in
theorem valid_step (valid : Valid s) {e : TextEvent Pixels} (allowed : Allowed e)
    (aimed : Aimed closest s e) :
    ∃ s' change, step graphemes closest s e = some (s', change) ∧ Valid s' := by
  have unordered : ∀ r : Range, (none : Option Range) = some r → r.start ≤ r.end := nofun
  cases e with
  | configure value placeholder enabled => exact ⟨_, _, rfl, valid_configure valid allowed⟩
  | setEnabled enabled => exact ⟨_, _, rfl, valid_setEnabled valid enabled⟩
  | beginAcknowledgement submitted =>
    exact ⟨_, _, rfl, valid.bounded, valid.controlled, valid.selection, valid.marked⟩
  | acknowledge submitted => exact ⟨_, _, rfl, valid_acknowledge valid submitted⟩
  | left =>
    refine ⟨_, _, rfl, ?_⟩
    unfold TextInputs.left
    split
    · exact valid_moveTo valid (boundary_previous hgraphemes _)
    · exact valid_moveTo valid valid.selection.start
  | right =>
    refine ⟨_, _, rfl, ?_⟩
    unfold TextInputs.right
    split
    · exact valid_moveTo valid (boundary_next hgraphemes _)
    · exact valid_moveTo valid valid.selection.stop
  | selectLeft => exact ⟨_, _, rfl, valid_selectTo valid (boundary_previous hgraphemes _)⟩
  | selectRight => exact ⟨_, _, rfl, valid_selectTo valid (boundary_next hgraphemes _)⟩
  | selectAll => exact ⟨_, _, rfl, valid_select valid rfl rfl rfl (within_selectAll _)⟩
  | home => exact ⟨_, _, rfl, valid_moveTo valid (boundary_zero _)⟩
  | «end» => exact ⟨_, _, rfl, valid_moveTo valid (boundary_end _)⟩
  | backspace =>
    change ∃ s' change, backspace s graphemes = some (s', change) ∧ Valid s'
    unfold backspace
    split
    · exact ⟨s, none, rfl, valid⟩
    · dsimp only
      split
      · exact valid_replaceTextInRange (valid_selectTo valid (boundary_previous hgraphemes _)) unordered []
      · exact valid_replaceTextInRange valid unordered []
  | delete =>
    change ∃ s' change, delete s graphemes = some (s', change) ∧ Valid s'
    unfold delete
    split
    · exact ⟨s, none, rfl, valid⟩
    · dsimp only
      split
      · exact valid_replaceTextInRange (valid_selectTo valid (boundary_next hgraphemes _)) unordered []
      · exact valid_replaceTextInRange valid unordered []
  | mouseDown position shift => exact ⟨_, _, rfl, valid_mouseDown valid aimed⟩
  | mouseMove position =>
    refine ⟨_, _, rfl, ?_⟩
    unfold mouseMove
    split
    · rename_i hselecting
      exact valid_selectTo valid (aimed hselecting)
    · exact valid
  | mouseUp => exact ⟨_, _, rfl, valid.bounded, valid.controlled, valid.selection, valid.marked⟩
  | repaint => exact ⟨_, _, rfl, valid.bounded, valid.controlled, valid.selection, valid.marked⟩
  | unmarkText => exact ⟨_, _, rfl, valid_unmarkText valid⟩
  | replaceTextInRange range text => exact valid_replaceTextInRange valid allowed text
  | replaceAndMarkTextInRange range text selected =>
    exact valid_replaceAndMarkTextInRange valid allowed.1 allowed.2 text
  | textForRange range =>
    obtain ⟨answer, hanswer⟩ := textForRange_ordered (s := s) allowed
    exact ⟨s, none, by rw [step, hanswer]; rfl, valid⟩
  | selectedTextRange ignoreDisabled =>
    obtain ⟨range, hrange⟩ := rangeToUtf16_within valid.selection
    refine ⟨s, none, ?_, valid⟩
    rw [step, selectedTextRange]
    split
    · rfl
    · rw [hrange]
      rfl
  | markedTextRange =>
    refine ⟨s, none, ?_, valid⟩
    rw [step, markedTextRange]
    cases hmarked : s.marked with
    | none => rfl
    | some range =>
      obtain ⟨units, hunits⟩ := rangeToUtf16_within (valid.marked range hmarked)
      dsimp only
      rw [hunits]
      rfl
  | characterIndexForPoint position =>
    obtain ⟨units, hunits⟩ := toUtf16_boundary aimed
    exact ⟨s, none, by rw [step, characterIndexForPoint, hunits]; rfl, valid⟩

include hgraphemes in
/-- As long as every place of the pointer is at a boundary of the content, the ranges stay in it
and no slice panics. -/
theorem ranges_stay_valid {value placeholder : Text} {enabled : Bool}
    (hvalue : byteLength value ≤ maxTextBytes)
    (h : Reachable ((textSystem graphemes closest (new value placeholder enabled)).restrict (Aimed closest)) s) :
    Valid s ∧ ∀ e, Allowed e → Aimed closest s e → (step graphemes closest s e).isSome = true := by
  have valid : Valid s := by
    refine reachable_invariant (S := (textSystem graphemes closest (new value placeholder enabled)).restrict
      (Aimed closest)) ?_ ?_ h
    · exact ⟨hvalue, hvalue, within_caret (boundary_zero value), nofun⟩
    · rintro s e t valid ⟨aimed, allowed, change, hstep⟩
      obtain ⟨s', change', hstep', valid'⟩ := valid_step hgraphemes valid allowed aimed
      obtain ⟨rfl, -⟩ := Prod.mk.inj (Option.some.inj (hstep'.symm.trans hstep))
      exact valid'
  refine ⟨valid, fun e allowed aimed => ?_⟩
  obtain ⟨s', change, hstep, -⟩ := valid_step hgraphemes valid allowed aimed
  exact Option.isSome_iff_exists.mpr ⟨_, hstep⟩

end Runs

section Examples

def characterStarts : Text → List ℕ
  | [] => []
  | ch :: text => 0 :: (characterStarts text).map (ch.utf8Size + ·)

theorem boundary_characterStarts (text : Text) : ∀ i ∈ characterStarts text, Boundary text i := by
  induction text with
  | nil => nofun
  | cons ch text ih =>
    intro i hi
    rcases List.mem_cons.mp hi with rfl | hi
    · exact boundary_zero _
    · obtain ⟨j, hj, rfl⟩ := List.mem_map.mp hi
      exact boundary_cons (ih j hj)

def closestEnd (line : Text) (right : Bool) : ℕ := if right then byteLength line else 0

theorem boundary_closestEnd (line : Text) (right : Bool) : Boundary line (closestEnd line right) := by
  cases right with
  | false => exact boundary_zero line
  | true => exact boundary_end line

def emptied : List (TextEvent Bool) := [.repaint, .configure [] [] true, .mouseDown true false]

def pressed : TextInput :=
  emptied.foldl (fun s e => ((step characterStarts closestEnd s e).map Prod.fst).getD s)
    (new ['a', 'b', 'c'] [] true)

theorem pressed_reachable :
    Reachable (textSystem characterStarts closestEnd (new ['a', 'b', 'c'] [] true)) pressed := by
  let system := textSystem characterStarts closestEnd (new ['a', 'b', 'c'] [] true)
  let painted := repaint (new ['a', 'b', 'c'] [] true)
  let configured := configure painted [] [] true
  have paints : system.Step (new ['a', 'b', 'c'] [] true) .repaint painted := ⟨trivial, none, rfl⟩
  have configures : system.Step painted (.configure [] [] true) configured :=
    ⟨Nat.zero_le _, none, rfl⟩
  have presses : system.Step configured (.mouseDown true false) pressed := ⟨trivial, none, rfl⟩
  exact reachable_step (reachable_step (reachable_step (reachable_initial _) paints) configures) presses

theorem stale_layout_breaks_the_selection : ¬∀ s : TextInput,
    Reachable (textSystem characterStarts closestEnd (new ['a', 'b', 'c'] [] true)) s →
      Valid s ∧ ∀ e, Allowed e → (step characterStarts closestEnd s e).isSome = true := by
  intro h
  have hpanic := (h pressed pressed_reachable).2 (.replaceTextInRange none ['x']) nofun
  exact absurd hpanic (by decide)

def typed : TextInput :=
  ([.repaint, .replaceTextInRange (some ⟨0, 0⟩) ['x'], .mouseDown true false] : List (TextEvent Bool)).foldl
    (fun s e => ((step characterStarts closestEnd s e).map Prod.fst).getD s) (new ['a', 'b', 'c'] [] true)

theorem typed_reachable : Reachable ((textSystem characterStarts closestEnd
    (new ['a', 'b', 'c'] [] true)).restrict (Aimed closestEnd)) typed := by
  let system := (textSystem characterStarts closestEnd (new ['a', 'b', 'c'] [] true)).restrict
    (Aimed closestEnd)
  let painted := repaint (new ['a', 'b', 'c'] [] true)
  obtain ⟨replaced, hreplaced⟩ : ∃ s, s = ((step characterStarts closestEnd painted
    (.replaceTextInRange (some ⟨0, 0⟩) ['x'])).map Prod.fst).getD painted := ⟨_, rfl⟩
  have paints : system.Step (new ['a', 'b', 'c'] [] true) .repaint painted := ⟨trivial, trivial, none, rfl⟩
  have replaces : system.Step painted (.replaceTextInRange (some ⟨0, 0⟩) ['x']) replaced := by
    refine ⟨trivial, ?_, some ['x', 'a', 'b', 'c'], hreplaced ▸ rfl⟩
    rintro _ ⟨⟩
    exact le_rfl
  have presses : system.Step replaced (.mouseDown true false) typed := by
    refine ⟨fun _ => ?_, trivial, none, hreplaced ▸ rfl⟩
    exact hreplaced ▸ ⟨['x', 'a', 'b'], ['c'], rfl, rfl⟩
  exact reachable_step (reachable_step (reachable_step (reachable_initial _) paints) replaces) presses

/-- The place pressed is inside the value, at a boundary of it. -/
theorem typed_input_stays_valid : Valid typed ∧ typed.selection = ⟨3, 3⟩ ∧ ∀ e : TextEvent Bool, Allowed e →
    Aimed closestEnd typed e → (step characterStarts closestEnd typed e).isSome = true := by
  obtain ⟨valid, steps⟩ := ranges_stay_valid boundary_characterStarts (by decide) typed_reachable
  exact ⟨valid, by decide, steps⟩

end Examples

end TextRanges
