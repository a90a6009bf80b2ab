import Mathlib.Data.Nat.Notation
import RocGui.Methods

/-! Styles of elements as applications write them, and as the host is given them. -/
namespace Styles

open Methods

/-- A pure computation that may crash. -/
abbrev Checked (α : Type) := Except (Failure Empty) α

def crash {α : Type} (message : String) : Checked α := .error (.panic message)

inductive Color where
  | default
  | rgb (bits : ℕ)
  | adaptive (light dark : ℕ)
  deriving DecidableEq

inductive Length where
  | auto
  | fill
  | px (pixels : ℕ)
  deriving DecidableEq

inductive Overflow where
  | visible
  | clip
  | scroll
  deriving DecidableEq

inductive Inset where
  | same
  | px (pixels : ℕ)
  deriving DecidableEq

inductive FontFace where
  | default
  | monospace
  deriving DecidableEq

inductive TextOverflow where
  | wrap
  | noWrap
  | ellipsis
  deriving DecidableEq

inductive Align where
  | default
  | start
  | center
  | end
  | baseline
  | stretch
  deriving DecidableEq

inductive Justify where
  | default
  | start
  | center
  | end
  | between
  | around
  deriving DecidableEq

structure Style where
  gap : ℕ := 8
  padding : ℕ := 0
  paddingTop : Inset := .same
  paddingRight : Inset := .same
  paddingBottom : Inset := .same
  paddingLeft : Inset := .same
  width : Length := .auto
  height : Length := .auto
  minWidth : Length := .auto
  minHeight : Length := .auto
  maxWidth : Length := .auto
  maxHeight : Length := .auto
  grow : Bool := false
  bg : Color := .default
  hoverBg : Color := .default
  activeBg : Color := .default
  disabledBg : Color := .default
  disabledFg : Color := .default
  focusColor : Color := .default
  fg : Color := .default
  borderColor : Color := .default
  borderWidth : ℕ := 0
  borderTop : Inset := .same
  borderRight : Inset := .same
  borderBottom : Inset := .same
  borderLeft : Inset := .same
  radius : ℕ := 0
  fontSize : ℕ := 0
  fontWeight : ℕ := 0
  shadow : ℕ := 0
  shadowY : ℕ := 0
  shadowColor : Color := .default
  shadowAlpha : ℕ := 100
  fontFace : FontFace := .default
  textOverflow : TextOverflow := .wrap
  overflowX : Overflow := .visible
  overflowY : Overflow := .visible
  align : Align := .default
  justify : Justify := .default
  deriving DecidableEq

structure StyleArgs where
  gap : ℕ
  paddingTop : ℕ
  paddingRight : ℕ
  paddingBottom : ℕ
  paddingLeft : ℕ
  widthKind : ℕ
  width : ℕ
  heightKind : ℕ
  height : ℕ
  minWidthKind : ℕ
  minWidth : ℕ
  minHeightKind : ℕ
  minHeight : ℕ
  maxWidthKind : ℕ
  maxWidth : ℕ
  maxHeightKind : ℕ
  maxHeight : ℕ
  grow : Bool
  bg : ℕ
  hoverBg : ℕ
  activeBg : ℕ
  disabledBg : ℕ
  disabledFg : ℕ
  focusColor : ℕ
  fg : ℕ
  borderColor : ℕ
  borderTop : ℕ
  borderRight : ℕ
  borderBottom : ℕ
  borderLeft : ℕ
  radius : ℕ
  fontSize : ℕ
  fontWeight : ℕ
  shadow : ℕ
  shadowY : ℕ
  shadowColor : ℕ
  shadowAlpha : ℕ
  fontFace : ℕ
  textOverflow : ℕ
  overflowX : ℕ
  overflowY : ℕ
  align : ℕ
  justify : ℕ
  deriving DecidableEq

def maxStyleValue : ℕ := 16384

def rgbBits (rgb : ℕ) : Checked ℕ :=
  if rgb ≤ 0x00ffffff then pure rgb else crash "Gui RGB colors are at most 0xffffff"

/-- One 64-bit word: an RGB value, the default as bit 24 alone, or a light value in the low
24 bits with a dark value over it and bit 48. -/
def color : Color → Checked ℕ
  | .default => pure 0x01000000
  | .rgb rgb => rgbBits rgb
  | .adaptive light dark => do
    let dark ← rgbBits dark
    let light ← rgbBits light
    pure (0x1000000000000 + dark * 0x1000000 + light)

def length : Length → Checked (ℕ × ℕ)
  | .auto => pure (0, 0)
  | .fill => pure (1, 0)
  | .px pixels =>
    if pixels ≤ maxStyleValue then pure (2, pixels)
    else crash "Gui pixel dimensions are at most 16384 logical pixels"

def overflow : Overflow → ℕ
  | .visible => 0
  | .clip => 1
  | .scroll => 2

def inset (value : Inset) (fallback : ℕ) : Checked ℕ :=
  match value with
  | .same => pure fallback
  | .px pixels =>
    if pixels ≤ maxStyleValue then pure pixels
    else crash "Gui per-side padding is at most 16384 logical pixels"

def fontFace : FontFace → ℕ
  | .default => 0
  | .monospace => 1

def textOverflow : TextOverflow → ℕ
  | .wrap => 0
  | .noWrap => 1
  | .ellipsis => 2

def align : Align → ℕ
  | .default => 0
  | .start => 1
  | .center => 2
  | .end => 3
  | .baseline => 4
  | .stretch => 5

def justify : Justify → ℕ
  | .default => 0
  | .start => 1
  | .center => 2
  | .end => 3
  | .between => 4
  | .around => 5

def checkFontSize (size : ℕ) : Checked Unit :=
  if size > maxStyleValue then
    crash "Gui style dimensions, spacing, borders, radii, and font sizes are at most 16384 logical pixels"
  else pure ()

def checkFontWeight (weight : ℕ) : Checked Unit :=
  if weight ≠ 0 ∧ (weight < 100 ∨ weight > 900) then
    crash "Gui font_weight is 0 for the native default, or 100 through 900"
  else pure ()

def styleArgs (style : Style) : Checked StyleArgs := do
  if style.gap > maxStyleValue ∨ style.padding > maxStyleValue ∨
      style.borderWidth > maxStyleValue ∨ style.radius > maxStyleValue ∨
      style.fontSize > maxStyleValue then
    crash "Gui style dimensions, spacing, borders, radii, and font sizes are at most 16384 logical pixels"
  checkFontWeight style.fontWeight
  if style.shadow > maxStyleValue ∨ style.shadowY > maxStyleValue then
    crash "Gui shadow blur and offset are at most 16384 logical pixels"
  if style.shadowAlpha > 100 then crash "Gui shadow_alpha is 0 through 100 percent"
  let width ← length style.width
  let height ← length style.height
  let minWidth ← length style.minWidth
  let minHeight ← length style.minHeight
  let maxWidth ← length style.maxWidth
  let maxHeight ← length style.maxHeight
  pure
    { gap := style.gap
      paddingTop := ← inset style.paddingTop style.padding
      paddingRight := ← inset style.paddingRight style.padding
      paddingBottom := ← inset style.paddingBottom style.padding
      paddingLeft := ← inset style.paddingLeft style.padding
      widthKind := width.1
      width := width.2
      heightKind := height.1
      height := height.2
      minWidthKind := minWidth.1
      minWidth := minWidth.2
      minHeightKind := minHeight.1
      minHeight := minHeight.2
      maxWidthKind := maxWidth.1
      maxWidth := maxWidth.2
      maxHeightKind := maxHeight.1
      maxHeight := maxHeight.2
      grow := style.grow
      bg := ← color style.bg
      hoverBg := ← color style.hoverBg
      activeBg := ← color style.activeBg
      disabledBg := ← color style.disabledBg
      disabledFg := ← color style.disabledFg
      focusColor := ← color style.focusColor
      fg := ← color style.fg
      borderColor := ← color style.borderColor
      borderTop := ← inset style.borderTop style.borderWidth
      borderRight := ← inset style.borderRight style.borderWidth
      borderBottom := ← inset style.borderBottom style.borderWidth
      borderLeft := ← inset style.borderLeft style.borderWidth
      radius := style.radius
      fontSize := style.fontSize
      fontWeight := style.fontWeight
      shadow := style.shadow
      shadowY := style.shadowY
      shadowColor := ← color style.shadowColor
      shadowAlpha := style.shadowAlpha
      fontFace := fontFace style.fontFace
      textOverflow := textOverflow style.textOverflow
      overflowX := overflow style.overflowX
      overflowY := overflow style.overflowY
      align := align style.align
      justify := justify style.justify }

/-- The default style is accepted, and every one of its colours is the native default. -/
theorem default_style_checked : ∃ args, styleArgs {} = .ok args := ⟨_, rfl⟩

end Styles
