import Mathlib.Algebra.Ring.Nat
import RocGui.TextFormats

/-! The native text editor: its content with the caret, the selection and the marked range, as
the person, the input method and the application change them. Offsets count bytes. -/
namespace TextInputs

open TextFormats

section Offsets

def byteLength (text : Text) : ℕ := (text.map Char.utf8Size).sum

def utf16Size (ch : Char) : ℕ := if ch.toNat < 0x10000 then 1 else 2

def utf16Length (text : Text) : ℕ := (text.map utf16Size).sum

def cut : Text → ℕ → Option (Text × Text)
  | text, 0 => some ([], text)
  | [], _ + 1 => none
  | ch :: text, offset + 1 =>
    if ch.utf8Size ≤ offset + 1 then
      (cut text (offset + 1 - ch.utf8Size)).map fun (front, back) => (ch :: front, back)
    else none

/-- The bytes before an offset in units of UTF-16. An offset inside a character is after it. -/
def utf16Offset : Text → ℕ → ℕ
  | _, 0 | [], _ => 0
  | ch :: text, offset + 1 => ch.utf8Size + utf16Offset text (offset + 1 - utf16Size ch)

end Offsets

def maxTextBytes : ℕ := 1024 * 1024

structure Range where
  start : ℕ
  «end» : ℕ
  deriving DecidableEq, Repr

def Range.isEmpty (range : Range) : Bool := !decide (range.start < range.end)

def Range.len (range : Range) : ℕ := range.end - range.start

structure TextInput where
  content : Text
  controlled : Text
  inFlightEdit : Option Text
  placeholder : Text
  selection : Range
  reversed : Bool
  marked : Option Range
  enabled : Bool
  selecting : Bool
  /-- The text of the line that was painted last. -/
  layout : Option Text
  deriving DecidableEq

section Controlling

variable (s : TextInput)

def caretAtEnd : TextInput :=
  { s with selection := ⟨byteLength s.content, byteLength s.content⟩, reversed := false }

def new (value placeholder : Text) (enabled : Bool) : TextInput where
  content := value
  controlled := value
  inFlightEdit := none
  placeholder := placeholder
  selection := ⟨0, 0⟩
  reversed := false
  marked := none
  enabled := enabled
  selecting := false
  layout := none

def setEnabled (enabled : Bool) : TextInput :=
  if s.enabled = enabled then s else { s with enabled := enabled, selecting := false }

/-- The value the application holds, which is shown unless a newer edit is. -/
def setControlled (value : Text) : TextInput :=
  if s.controlled = value then s
  else
    let s := { s with controlled := value }
    let newerEdit := s.inFlightEdit.any fun submitted => s.content ≠ submitted
    if s.content ≠ value ∧ newerEdit = false then
      { caretAtEnd { s with content := value } with marked := none }
    else s

def configure (value placeholder : Text) (enabled : Bool) : TextInput :=
  setEnabled (setControlled { s with placeholder := placeholder } value) enabled

def beginAcknowledgement (submitted : Text) : TextInput := { s with inFlightEdit := some submitted }

def acknowledge (submitted : Text) : TextInput :=
  let s := { s with inFlightEdit := none }
  if s.marked.isSome ∨ s.content ≠ submitted then s
  else if s.content = s.controlled then s
  else { caretAtEnd { s with content := s.controlled } with layout := none }

end Controlling

section Carets

-- `graphemes` are the offsets at which the clusters of a text start
variable (graphemes : Text → List ℕ) (s : TextInput)

def cursor : ℕ := if s.reversed then s.selection.start else s.selection.end

def moveTo (offset : ℕ) : TextInput := { s with selection := ⟨offset, offset⟩, reversed := false }

def selectTo (offset : ℕ) : TextInput :=
  let anchor := if s.reversed then s.selection.end else s.selection.start
  { s with selection := ⟨min anchor offset, max anchor offset⟩, reversed := decide (offset < anchor) }

def previous (offset : ℕ) : ℕ := ((graphemes s.content).reverse.find? (· < offset)).getD 0

def next (offset : ℕ) : ℕ := ((graphemes s.content).find? (offset < ·)).getD (byteLength s.content)

def left : TextInput :=
  if s.selection.isEmpty then moveTo s (previous graphemes s (cursor s)) else moveTo s s.selection.start

def right : TextInput :=
  if s.selection.isEmpty then moveTo s (next graphemes s (cursor s)) else moveTo s s.selection.end

def selectLeft : TextInput := selectTo s (previous graphemes s (cursor s))

def selectRight : TextInput := selectTo s (next graphemes s (cursor s))

def selectAll : TextInput := { s with selection := ⟨0, byteLength s.content⟩, reversed := false }

def home : TextInput := moveTo s 0

def «end» : TextInput := moveTo s (byteLength s.content)

end Carets

section Pointers

-- `closest` is the offset that a line of a text has nearest to a place
variable {Pixels : Type} (closest : Text → Pixels → ℕ) (s : TextInput)

def indexAt (position : Pixels) : ℕ :=
  match s.layout with
  | some line => closest line position
  | none => 0

def mouseDown (position : Pixels) (shift : Bool) : TextInput :=
  if !s.enabled then s
  else
    let s := { s with selecting := true }
    let index := indexAt closest s position
    if shift then selectTo s index else moveTo s index

def mouseMove (position : Pixels) : TextInput :=
  if s.selecting then selectTo s (indexAt closest s position) else s

def mouseUp : TextInput := { s with selecting := false }

/-- An empty input shows its placeholder. -/
def repaint : TextInput :=
  { s with layout := some (if s.content = [] then s.placeholder else s.content) }

end Pointers

section Editing

-- an edit answers the input with the change it emits; without an answer, a slice panicked
variable (s : TextInput)

def toUtf16 (offset : ℕ) : Option ℕ := (cut s.content offset).map fun (front, _) => utf16Length front

/-- The range an edit replaces: the one it names, the marked one or the selection. -/
def replaced (range : Option Range) : Range :=
  match range with
  | some range => ⟨utf16Offset s.content range.start, utf16Offset s.content range.end⟩
  | none => s.marked.getD s.selection

def refuses (range : Range) (text : Text) : Bool :=
  text.any (fun ch => ch = '\r' || ch = '\n') ||
    decide (maxTextBytes - (byteLength s.content - range.len) < byteLength text)

def splice (range : Range) (text : Text) : Option Text := do
  let (front, _) ← cut s.content range.start
  let (_, back) ← cut s.content range.end
  return front ++ text ++ back

def unmarkText : TextInput × Option Text :=
  if s.enabled && s.marked.isSome then ({ s with marked := none }, some s.content) else (s, none)

def replaceTextInRange (range : Option Range) (text : Text) : Option (TextInput × Option Text) :=
  if !s.enabled then some (s, none)
  else
    let range := replaced s range
    if refuses s range text then some (s, none)
    else (splice s range text).map fun content =>
      let caret := range.start + byteLength text
      ({ s with content := content, selection := ⟨caret, caret⟩, reversed := false, marked := none },
        some content)

/-- A preedit, which is no change yet. -/
def replaceAndMarkTextInRange (range : Option Range) (text : Text) (selected : Option Range) :
    Option (TextInput × Option Text) :=
  if !s.enabled then some (s, none)
  else
    let range := replaced s range
    if refuses s range text then some (s, none)
    else (splice s range text).map fun content =>
      let caret := range.start + byteLength text
      ({ s with
          content := content
          marked := if text = [] then none else some ⟨range.start, caret⟩
          selection := match selected with
            | some r => ⟨range.start + utf16Offset text r.start, range.start + utf16Offset text r.end⟩
            | none => ⟨caret, caret⟩
          reversed := false }, none)

def backspace (graphemes : Text → List ℕ) : Option (TextInput × Option Text) :=
  if !s.enabled then some (s, none)
  else
    let s := if s.selection.isEmpty then selectTo s (previous graphemes s (cursor s)) else s
    replaceTextInRange s none []

def delete (graphemes : Text → List ℕ) : Option (TextInput × Option Text) :=
  if !s.enabled then some (s, none)
  else
    let s := if s.selection.isEmpty then selectTo s (next graphemes s (cursor s)) else s
    replaceTextInRange s none []

end Editing

section Queries

variable (s : TextInput)

def textForRange (range : Range) : Option (Range × Text) := do
  let start := utf16Offset s.content range.start
  let stop := utf16Offset s.content range.end
  let actual := ⟨← toUtf16 s start, ← toUtf16 s stop⟩
  let (front, _) ← cut s.content stop
  let (_, text) ← cut front start
  return (actual, text)

def rangeToUtf16 (range : Range) : Option Range := do
  return ⟨← toUtf16 s range.start, ← toUtf16 s range.end⟩

/-- The inner `none` is a disabled input, which answers nothing. -/
def selectedTextRange (ignoreDisabled : Bool) : Option (Option (Range × Bool)) :=
  if !s.enabled && !ignoreDisabled then some none
  else (rangeToUtf16 s s.selection).map fun range => some (range, s.reversed)

def markedTextRange : Option (Option Range) :=
  match s.marked with
  | none => some none
  | some range => (rangeToUtf16 s range).map some

def characterIndexForPoint {Pixels : Type} (closest : Text → Pixels → ℕ) (position : Pixels) : Option ℕ :=
  toUtf16 s (indexAt closest s position)

end Queries

section Events

inductive TextEvent (Pixels : Type) where
  | configure (value placeholder : Text) (enabled : Bool)
  | setEnabled (enabled : Bool)
  | beginAcknowledgement (submitted : Text)
  | acknowledge (submitted : Text)
  | left | right | selectLeft | selectRight | selectAll | home | «end» | backspace | delete
  | mouseDown (position : Pixels) (shift : Bool)
  | mouseMove (position : Pixels)
  | mouseUp
  | repaint
  | unmarkText
  | replaceTextInRange (range : Option Range) (text : Text)
  | replaceAndMarkTextInRange (range : Option Range) (text : Text) (selected : Option Range)
  | textForRange (range : Range)
  | selectedTextRange (ignoreDisabled : Bool)
  | markedTextRange
  | characterIndexForPoint (position : Pixels)

variable {Pixels : Type} (graphemes : Text → List ℕ) (closest : Text → Pixels → ℕ)

/-- The input after an event, and the change it emits. -/
def step (s : TextInput) : TextEvent Pixels → Option (TextInput × Option Text)
  | .configure value placeholder enabled => some (configure s value placeholder enabled, none)
  | .setEnabled enabled => some (setEnabled s enabled, none)
  | .beginAcknowledgement submitted => some (beginAcknowledgement s submitted, none)
  | .acknowledge submitted => some (acknowledge s submitted, none)
  | .left => some (left graphemes s, none)
  | .right => some (right graphemes s, none)
  | .selectLeft => some (selectLeft graphemes s, none)
  | .selectRight => some (selectRight graphemes s, none)
  | .selectAll => some (selectAll s, none)
  | .home => some (home s, none)
  | .end => some (TextInputs.end s, none)
  | .backspace => backspace s graphemes
  | .delete => delete s graphemes
  | .mouseDown position shift => some (mouseDown closest s position shift, none)
  | .mouseMove position => some (mouseMove closest s position, none)
  | .mouseUp => some (mouseUp s, none)
  | .repaint => some (repaint s, none)
  | .unmarkText => some (unmarkText s)
  | .replaceTextInRange range text => replaceTextInRange s range text
  | .replaceAndMarkTextInRange range text selected => replaceAndMarkTextInRange s range text selected
  | .textForRange range => (textForRange s range).map fun _ => (s, none)
  | .selectedTextRange ignoreDisabled => (selectedTextRange s ignoreDisabled).map fun _ => (s, none)
  | .markedTextRange => (markedTextRange s).map fun _ => (s, none)
  | .characterIndexForPoint position =>
    (characterIndexForPoint s closest position).map fun _ => (s, none)

/-- Values of at most the limit are configured, and ranges come in order. -/
def Allowed : TextEvent Pixels → Prop
  | .configure value _ _ => byteLength value ≤ maxTextBytes
  | .replaceTextInRange range _ => ∀ r, range = some r → r.start ≤ r.end
  | .replaceAndMarkTextInRange range _ selected =>
    (∀ r, range = some r → r.start ≤ r.end) ∧ ∀ r, selected = some r → r.start ≤ r.end
  | .textForRange range => range.start ≤ range.end
  | _ => True

end Events

end TextInputs
