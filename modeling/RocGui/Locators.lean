import RocGui.SpecReader

/-! The locators of specifications: how they are parsed, and how a failure message prints them. -/
namespace Locators

open TextFormats SpecReader

section Forms

inductive Form where
  | text
  | textPrefix
  | buttonName
  | buttonPrefix
  | checkboxName
  | checkboxPrefix
  | columnName
  | dialogName
  | tooltipName
  | shortcut
  | chord
  | panelName
  | rowName
  | scrollName
  | virtualListName
  | textareaName
  | imageName
  | canvasName
  | canvasItemName
  | canvasItemPrefix
  | textInputName
  | separatorName
  | tabName
  | dropTargetName
  deriving DecidableEq

inductive Locator where
  | within (ancestor target : Locator)
  | named (form : Form) (value : Text)
  deriving DecidableEq

def Locator.names : Locator → List Text
  | .within ancestor target => ancestor.names ++ target.names
  | .named _ value => [value]

/-- The final target role, without changing the scope used for resolution. -/
def Locator.target : Locator → Locator
  | .within _ target => target.target
  | locator => locator

def Form.word : Form → Text
  | .text => "text".toList
  | .textPrefix => "text-prefix".toList
  | .buttonName => "button".toList
  | .buttonPrefix => "button-prefix".toList
  | .checkboxName => "checkbox".toList
  | .checkboxPrefix => "checkbox-prefix".toList
  | .columnName => "column".toList
  | .dialogName => "dialog".toList
  | .tooltipName => "tooltip".toList
  | .shortcut => "shortcut".toList
  | .chord => "chord".toList
  | .panelName => "panel".toList
  | .rowName => "row".toList
  | .scrollName => "scroll".toList
  | .virtualListName => "virtual-list".toList
  | .textareaName => "textarea".toList
  | .imageName => "image".toList
  | .canvasName => "canvas".toList
  | .canvasItemName => "canvas-item".toList
  | .canvasItemPrefix => "canvas-item-prefix".toList
  | .textInputName => "textbox".toList
  | .separatorName => "separator".toList
  | .tabName => "tab".toList
  | .dropTargetName => "drop-target".toList

def plainForms : List Form :=
  [.text, .textPrefix, .checkboxPrefix, .canvasItemPrefix, .shortcut, .chord, .buttonPrefix]

def roleForms : List Form :=
  [.canvasItemName, .canvasName, .dialogName, .separatorName, .dropTargetName, .tabName,
    .tooltipName, .textInputName, .panelName, .textareaName, .imageName, .columnName, .rowName,
    .buttonName, .checkboxName, .scrollName, .virtualListName]

def roleWord : Text := "role".toList
def nameWord : Text := ":name".toList
def withinWord : Text := "within".toList

def Form.symbols (form : Form) : List Text :=
  if form ∈ plainForms then [form.word] else [roleWord, form.word, nameWord]

def Form.complaint : Form → String
  | .text => "text locator requires a string"
  | .textPrefix => "text-prefix locator requires a string"
  | .checkboxPrefix => "checkbox-prefix locator requires a string"
  | .canvasItemPrefix => "canvas-item-prefix locator requires a string"
  | .shortcut => "shortcut locator requires a chord string"
  | .chord => "chord locator requires a chord string"
  | .buttonPrefix => "button-prefix locator requires a string"
  | .canvasItemName => "canvas item name must be a string"
  | .canvasName => "canvas name must be a string"
  | .dialogName => "dialog name must be a string"
  | .separatorName => "separator name must be a string"
  | .dropTargetName => "drop target name must be a string"
  | .tabName => "tab name must be a string"
  | .tooltipName => "tooltip name must be a string"
  | .textInputName => "textbox name must be a string"
  | .panelName => "panel name must be a string"
  | .textareaName => "textarea name must be a string"
  | .imageName => "image name must be a string"
  | .columnName => "column name must be a string"
  | .rowName => "row name must be a string"
  | .buttonName => "button name must be a string"
  | .checkboxName => "checkbox name must be a string"
  | .scrollName => "scroll name must be a string"
  | .virtualListName => "virtual-list name must be a string"

end Forms

section Printing

def hexadecimal (n : ℕ) : Text := Nat.toDigits 16 n

/-- A character as `Debug` prints it in a string: `plain` says which ones it leaves as they are. -/
def debugChar (plain : Char → Bool) (ch : Char) : Text :=
  if ch = '\x00' then ['\\', '0']
  else if ch = '\t' then ['\\', 't']
  else if ch = '\r' then ['\\', 'r']
  else if ch = '\n' then ['\\', 'n']
  else if ch = '\\' then ['\\', '\\']
  else if ch = '"' then ['\\', '"']
  else if plain ch then [ch]
  else '\\' :: 'u' :: '\x7b' :: (hexadecimal ch.toNat ++ ['\x7d'])

def debugText (plain : Char → Bool) (text : Text) : Text :=
  '"' :: (text.flatMap (debugChar plain) ++ ['"'])

/-- Renders a locator the way it is written in a specification. -/
def display (plain : Char → Bool) : Locator → Text
  | .within ancestor target =>
    '(' :: (withinWord ++ ' ' :: (display plain ancestor ++ ' ' :: (display plain target ++ [')'])))
  | .named form value =>
    '(' :: (form.symbols.flatMap (· ++ [' ']) ++ (debugText plain value ++ [')']))

end Printing

section Chords

/-- What the toolkit knows of key chords, and whether the host's root takes one. -/
structure Keyboard (κ : Type) where
  parse : Text → Except Text κ
  unparse : κ → Text
  rootTakes : κ → Bool

/-- White space, as Unicode has it. -/
def isWhitespace (ch : Char) : Bool :=
  let n := ch.toNat
  (9 ≤ n && n ≤ 13) || (0x2000 ≤ n && n ≤ 0x200A) ||
    [0x20, 0x85, 0xA0, 0x1680, 0x2028, 0x2029, 0x202F, 0x205F, 0x3000].contains n

def OneWord (written : Text) : Prop := written ≠ [] ∧ ∀ ch ∈ written, isWhitespace ch = false

instance (written : Text) : Decidable (OneWord written) :=
  have : Decidable (∀ ch ∈ written, isWhitespace ch = false) := List.decidableBAll _ written
  inferInstanceAs (Decidable (_ ∧ _))

variable {κ : Type} (plain : Char → Bool) (keys : Keyboard κ)

def notOneChord (written : Text) : Text := debugText plain written ++ " is not one key chord".toList

/-- The canonical spelling of one declared chord, or why it cannot be one. -/
def canonicalChord (written : Text) : Except Text Text :=
  if ¬OneWord written then .error (notOneChord plain written)
  else do
    let keystroke ← keys.parse written
    let canonical := keys.unparse keystroke
    if keys.rootTakes keystroke then .error (canonical ++ " belongs to the host".toList)
    else return canonical

/-- The canonical spelling of a chord shown as text. The host's own may be named. -/
def displayedChord (written : Text) : Except Text Text :=
  if ¬OneWord written then .error (notOneChord plain written)
  else return keys.unparse (← keys.parse written)

end Chords

section Parsing

variable {κ : Type} (plain : Char → Bool) (keys : Keyboard κ)

def lineOf : SExpr → ℕ
  | .atom _ line | .string _ line | .list _ line => line

def atomOf : SExpr → Option Text
  | .atom value _ => some value
  | _ => none

def stringOf : SExpr → Option Text
  | .string value _ => some value
  | _ => none

def errorAt (node : SExpr) (message : String) : ParseError := ⟨lineOf node, message⟩

/-- The name a locator has when this was written for it. -/
def Form.named (form : Form) (written : Text) : Except Text Text :=
  match form with
  | .shortcut => (canonicalChord plain keys written).mapError ("shortcut locator: ".toList ++ ·)
  | .chord => (displayedChord plain keys written).mapError ("chord locator: ".toList ++ ·)
  | _ => .ok written

def formOf (word : Text) : List SExpr → Option (Form × SExpr)
  | [value] => (plainForms.find? (·.word = word)).map (·, value)
  | [role, name, value] =>
    if word = roleWord ∧ atomOf name = some nameWord then
      (roleForms.find? fun form => atomOf role = some form.word).map (·, value)
    else none
  | _ => none

def supportedRoles : String :=
  "supported roles are button, canvas, canvas-item, checkbox, column, dialog, image, panel, row, "
    ++ "scroll, separator, tab, textarea, textbox, tooltip, and virtual-list"

def parseNamed (node : SExpr) (word : Text) (rest : List SExpr) : Except ParseError Locator :=
  match formOf word rest with
  | some (form, value) =>
    match stringOf value with
    | none => .error (errorAt node form.complaint)
    | some written =>
      match form.named plain keys written with
      | .error detail => .error (errorAt node (.ofList detail))
      | .ok name => .ok (.named form name)
  | none =>
    if word = roleWord then .error (errorAt node supportedRoles)
    else .error (errorAt node ("unsupported locator " ++ .ofList word))

def parseLocator (node : SExpr) : Except ParseError Locator :=
  match node with
  | .list values line =>
    match values with
    | [first, ancestor, target] =>
      if atomOf first = some withinWord then do
        return .within (← parseLocator ancestor) (← parseLocator target)
      else match atomOf first with
        | none => .error ⟨line, "locator requires a name"⟩
        | some word => parseNamed plain keys (.list values line) word [ancestor, target]
    | [] => .error ⟨line, "locator requires a name"⟩
    | first :: rest =>
      match atomOf first with
      | none => .error ⟨line, "locator requires a name"⟩
      | some word =>
        if word = withinWord then
          .error ⟨line, "within requires an ancestor and a target locator"⟩
        else parseNamed plain keys (.list values line) word rest
  | _ => .error (errorAt node "locator must be a list")

def readLocator (source : Text) : Except ParseError Locator := do
  let (node, p) ← expr (.new source)
  let p := skipSpaceAndComments p
  if p.bytes ≠ [] then .error (p.error "expected exactly one locator")
  else parseLocator plain keys node

end Parsing

end Locators
