import Mathlib.Data.List.Basic
import Mathlib.Data.Nat.Notation

/-! Text formats of lines and fields: decimal numbers, hexadecimal bytes and UTF-8, and what
reads them back. A text is its characters. -/
namespace TextFormats

abbrev Text := List Char

section Lines

/-- A line without the carriage return before its end. -/
def chomp (line : Text) : Text := if line.getLast? = some '\r' then line.dropLast else line

def endLines : List Text → List Text
  | [] => []
  | [last] => if last = [] then [] else [last]
  | line :: rest => chomp line :: endLines rest

def lines (text : Text) : List Text := endLines (text.splitOn '\n')

def unlines : List Text → Text
  | [] => []
  | line :: rest => line ++ '\n' :: unlines rest

theorem lines_cons {line rest : Text} (h : '\n' ∉ line) :
    lines (line ++ '\n' :: rest) = chomp line :: lines rest := by
  rw [lines, List.splitOn_append_cons_self_of_not_mem h, lines]
  cases hrest : rest.splitOn '\n' with
  | nil => exact absurd hrest (List.splitOn_ne_nil _ _)
  | cons next more => rfl

theorem lines_unlines {ls : List Text} (h : ∀ line ∈ ls, '\n' ∉ line) :
    lines (unlines ls) = ls.map chomp := by
  induction ls with
  | nil => rfl
  | cons line rest ih =>
    rw [unlines, lines_cons (h line List.mem_cons_self),
      ih fun l hl => h l (List.mem_cons_of_mem _ hl), List.map_cons]

theorem chomp_of_getLast? {line : Text} (h : line.getLast? ≠ some '\r') : chomp line = line :=
  if_neg h

end Lines

section Fields

def fields (line : Text) : List Text := line.splitOn '\t'

def joinFields (fs : List Text) : Text := ['\t'].intercalate fs

theorem fields_joinFields {fs : List Text} (h : ∀ f ∈ fs, '\t' ∉ f) (hne : fs ≠ []) :
    fields (joinFields fs) = fs := List.splitOn_intercalate '\t' h hne

theorem mem_joinFields {fs : List Text} {ch : Char} (h : ch ∈ joinFields fs) :
    ch = '\t' ∨ ∃ f ∈ fs, ch ∈ f := by
  induction fs with
  | nil => cases h
  | cons f rest ih =>
    cases rest with
    | nil =>
      rw [joinFields, List.intercalate_singleton] at h
      exact .inr ⟨f, List.mem_singleton_self f, h⟩
    | cons g rest =>
      rw [joinFields, List.intercalate_cons_cons, List.mem_append, List.mem_append] at h
      rcases h with (h | h) | h
      · exact .inr ⟨f, List.mem_cons_self, h⟩
      · exact .inl (List.mem_singleton.mp h)
      · exact (ih h).imp_right fun ⟨g, hg, hch⟩ => ⟨g, List.mem_cons_of_mem _ hg, hch⟩

end Fields

section Numbers

def decimal (n : ℕ) : Text := Nat.toDigits 10 n

/-- The text without a leading sign. A sign alone is no number. -/
def unsigned : Text → Text
  | '+' :: digit :: digits => digit :: digits
  | text => text

def parseNumber (bound : ℕ) (text : Text) : Option ℕ :=
  let digits := unsigned text
  if digits ≠ [] ∧ digits.all Char.isDigit ∧ Nat.ofDigitChars 10 digits 0 < bound then
    some (Nat.ofDigitChars 10 digits 0)
  else none

theorem isDigit_of_mem_decimal {n : ℕ} {ch : Char} (h : ch ∈ decimal n) : ch.isDigit :=
  Nat.isDigit_of_mem_toDigits (by decide) (by decide) h

theorem decimal_injective : Function.Injective decimal := by
  intro m n h
  rw [decimal, decimal] at h
  calc m = Nat.ofDigitChars 10 (Nat.toDigits 10 m) 0 := Nat.ofDigitChars_ten_toDigits.symm
    _ = Nat.ofDigitChars 10 (Nat.toDigits 10 n) 0 := by rw [h]
    _ = n := Nat.ofDigitChars_ten_toDigits

theorem unsigned_decimal (n : ℕ) : unsigned (decimal n) = decimal n := by
  cases h : decimal n with
  | nil => rfl
  | cons ch rest =>
    have hdigit : ch.isDigit := isDigit_of_mem_decimal (n := n) (by simp [h])
    unfold unsigned
    split
    · rename_i heq
      rw [(List.cons.inj heq).1] at hdigit
      exact absurd hdigit (by decide)
    · rfl

theorem parseNumber_decimal {n bound : ℕ} (h : n < bound) : parseNumber bound (decimal n) = some n := by
  have hvalue : Nat.ofDigitChars 10 (decimal n) 0 = n := Nat.ofDigitChars_ten_toDigits
  have hall : (decimal n).all Char.isDigit = true :=
    List.all_eq_true.mpr fun _ => isDigit_of_mem_decimal
  rw [parseNumber, unsigned_decimal, hvalue, if_pos ⟨Nat.toDigits_ne_nil, hall, h⟩]

end Numbers

section Bytes

abbrev Bytes := List UInt8

def hexByte (byte : UInt8) : Text :=
  [Nat.digitChar (byte.toNat / 16), Nat.digitChar (byte.toNat % 16)]

def hex (bytes : Bytes) : Text := bytes.flatMap hexByte

def hexValue (ch : Char) : Option ℕ :=
  if '0' ≤ ch ∧ ch ≤ '9' then some (ch.toNat - '0'.toNat)
  else if 'a' ≤ ch ∧ ch ≤ 'f' then some (ch.toNat - 'a'.toNat + 10)
  else if 'A' ≤ ch ∧ ch ≤ 'F' then some (ch.toNat - 'A'.toNat + 10)
  else none

/-- Two characters as a byte in base sixteen; a sign may stand for the first digit. -/
def readByte (high low : Char) : Option UInt8 := do
  let h ← if high = '+' then some 0 else hexValue high
  let l ← hexValue low
  return UInt8.ofNat (16 * h + l)

def unhex : Text → Option Bytes
  | [] => some []
  | [_] => none
  | high :: low :: rest => do
    let byte ← readByte high low
    let bytes ← unhex rest
    return byte :: bytes

theorem hexValue_digitChar {n : ℕ} (h : n < 16) :
    hexValue (Nat.digitChar n) = some n ∧ Nat.digitChar n ≠ '+' := by
  have all : ∀ n < 16, hexValue (Nat.digitChar n) = some n ∧ Nat.digitChar n ≠ '+' := by decide
  exact all n h

theorem readByte_hexByte (byte : UInt8) :
    readByte (Nat.digitChar (byte.toNat / 16)) (Nat.digitChar (byte.toNat % 16)) = some byte := by
  have hbound : byte.toNat < 256 := byte.toNat_lt
  obtain ⟨hhigh, hsign⟩ := hexValue_digitChar (n := byte.toNat / 16) (by omega)
  obtain ⟨hlow, -⟩ := hexValue_digitChar (n := byte.toNat % 16) (by omega)
  have hsum : 16 * (byte.toNat / 16) + byte.toNat % 16 = byte.toNat := by omega
  rw [readByte, if_neg hsign, hhigh, hlow]
  change some (UInt8.ofNat (16 * (byte.toNat / 16) + byte.toNat % 16)) = some byte
  rw [hsum, UInt8.ofNat_toNat]

theorem unhex_hex (bytes : Bytes) : unhex (hex bytes) = some bytes := by
  induction bytes with
  | nil => rfl
  | cons byte rest ih =>
    rw [hex, List.flatMap_cons, hexByte]
    change unhex (Nat.digitChar (byte.toNat / 16) :: Nat.digitChar (byte.toNat % 16) :: hex rest) = _
    simp [unhex, readByte_hexByte, ih]

theorem isAlphanum_of_mem_hex {bytes : Bytes} {ch : Char} (h : ch ∈ hex bytes) :
    ch.isAlphanum := by
  have digits : ∀ n < 16, (Nat.digitChar n).isAlphanum := by decide
  obtain ⟨byte, -, hch⟩ := List.mem_flatMap.mp h
  have hbound : byte.toNat < 256 := byte.toNat_lt
  rcases List.mem_cons.mp hch with rfl | hch
  · exact digits _ (by omega)
  · rw [List.mem_singleton.mp hch]
    exact digits _ (by omega)

end Bytes

section Unicode

def utf8 (text : Text) : Bytes := text.flatMap String.utf8EncodeChar

def fromUtf8 (bytes : Bytes) : Option Text := bytes.toByteArray.utf8Decode?.map Array.toList

theorem fromUtf8_utf8 (text : Text) : fromUtf8 (utf8 text) = some text := by
  have h : (utf8 text).toByteArray = text.utf8Encode := rfl
  rw [fromUtf8, h, List.utf8Decode?_utf8Encode, Option.map_some, List.toList_toArray]

end Unicode

end TextFormats
