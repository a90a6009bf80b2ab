import RocGui.TextFormats

/-! The reader of specifications: one expression of a text, byte by byte. -/
namespace SpecReader

open TextFormats

def maxSourceBytes : ℕ := 1024 * 1024
def maxNestingDepth : ℕ := 128
def maxExpressions : ℕ := 100000

/-- An expression carries the line it starts on. -/
inductive SExpr where
  | atom (value : Text) (line : ℕ)
  | string (value : Text) (line : ℕ)
  | list (values : List SExpr) (line : ℕ)

structure ParseError where
  line : ℕ
  message : String
  deriving DecidableEq, Repr

section Bytes

def newline : UInt8 := 10
def space : UInt8 := 32
def quote : UInt8 := 34
def opening : UInt8 := 40
def closing : UInt8 := 41
def semicolon : UInt8 := 59
def backslash : UInt8 := 92

def isAsciiWhitespace (byte : UInt8) : Bool :=
  byte = 9 || byte = newline || byte = 12 || byte = 13 || byte = space

def endsAtom (byte : UInt8) : Bool :=
  isAsciiWhitespace byte || byte = opening || byte = closing || byte = semicolon

def unescape (byte : UInt8) : Option Char :=
  if byte = 110 then some '\n'
  else if byte = 114 then some '\r'
  else if byte = 116 then some '\t'
  else if byte = quote then some '"'
  else if byte = backslash then some '\\'
  else none

def utf8Width (first : UInt8) : Option ℕ :=
  let n := first.toNat
  if 0xC2 ≤ n ∧ n ≤ 0xDF then some 2
  else if 0xE0 ≤ n ∧ n ≤ 0xEF then some 3
  else if 0xF0 ≤ n ∧ n ≤ 0xF4 then some 4
  else none

end Bytes

structure Parser where
  bytes : Bytes
  line : ℕ
  expressions : ℕ

namespace Parser

def new (source : Text) : Parser := ⟨utf8 source, 1, 0⟩

def error (p : Parser) (message : String) : ParseError := ⟨p.line, message⟩

end Parser

section Reading

/-- Whitespace, and comments up to the end of their lines. -/
def skip : Bool → Bytes → ℕ → Bytes × ℕ
  | _, [], line => ([], line)
  | false, byte :: rest, line =>
    if isAsciiWhitespace byte then skip false rest (if byte = newline then line + 1 else line)
    else if byte = semicolon then skip true rest line
    else (byte :: rest, line)
  | true, byte :: rest, line => if byte = newline then skip false rest (line + 1) else skip true rest line

def skipSpaceAndComments (p : Parser) : Parser :=
  let (bytes, line) := skip false p.bytes p.line
  { p with bytes := bytes, line := line }

/-- The string after its opening quote, with what was read of it. -/
def readString (value : Text) (bytes : Bytes) (line : ℕ) : Except ParseError (Text × Bytes × ℕ) :=
  match bytes with
  | [] => .error ⟨line, "unterminated string"⟩
  | byte :: rest =>
    if byte = quote then .ok (value, rest, line)
    else if byte = backslash then match rest with
      | [] => .error ⟨line, "unterminated escape"⟩
      | escaped :: rest => match unescape escaped with
        | none => .error ⟨line, "unsupported string escape"⟩
        | some ch => readString (value ++ [ch]) rest line
    else if byte = newline then readString (value ++ ['\n']) rest (line + 1)
    else if byte.toNat < 128 then readString (value ++ [Char.ofNat byte.toNat]) rest line
    else match utf8Width byte with
      | none => .error ⟨line, "invalid UTF-8"⟩
      | some width =>
        if (byte :: rest).length < width then .error ⟨line, "invalid UTF-8"⟩
        else match fromUtf8 ((byte :: rest).take width) with
          | none => .error ⟨line, "invalid UTF-8"⟩
          | some text => readString (value ++ text) (rest.drop (width - 1)) line
termination_by bytes.length

def string (p : Parser) (line : ℕ) : Except ParseError (SExpr × Parser) := do
  let (value, bytes, after) ← readString [] (p.bytes.drop 1) p.line
  return (.string value line, { p with bytes := bytes, line := after })

def atom (p : Parser) (line : ℕ) : Except ParseError (SExpr × Parser) :=
  match fromUtf8 (p.bytes.takeWhile fun byte => !endsAtom byte) with
  | none => .error (p.error "invalid UTF-8 atom")
  | some value =>
    .ok (.atom value line, { p with bytes := p.bytes.dropWhile fun byte => !endsAtom byte })

/-- The expressions of a list up to its end. Each takes a byte at least, so that the length of
the source is fuel enough. -/
def items (read : Parser → Except ParseError (SExpr × Parser)) :
    ℕ → Parser → Except ParseError (List SExpr × Parser)
  | 0, p => .error (p.error "unterminated list")
  | fuel + 1, p =>
    let p := skipSpaceAndComments p
    match p.bytes with
    | [] => .error (p.error "unterminated list")
    | byte :: rest =>
      if byte = closing then .ok ([], { p with bytes := rest })
      else do
        let (value, p) ← read p
        let (values, p) ← items read fuel p
        return (value :: values, p)

/-- An expression with this many levels left, which are one more than the depth limit at first. -/
def exprAtDepth : ℕ → Parser → Except ParseError (SExpr × Parser)
  | 0, p => .error (p.error "spec exceeds the 128-level nesting limit")
  | levels + 1, p =>
    let p := { p with expressions := p.expressions + 1 }
    if p.expressions > maxExpressions then .error (p.error "spec exceeds the 100000-expression limit")
    else
      let p := skipSpaceAndComments p
      match p.bytes with
      | [] => .error (p.error "expected expression")
      | byte :: rest =>
        if byte = opening then do
          let (values, after) ← items (exprAtDepth levels) (rest.length + 1) { p with bytes := rest }
          return (.list values p.line, after)
        else if byte = quote then string p p.line
        else if byte = closing then .error (p.error "unexpected ')'")
        else atom p p.line

def expr (p : Parser) : Except ParseError (SExpr × Parser) := exprAtDepth (maxNestingDepth + 1) p

def read (source : Text) : Except ParseError SExpr :=
  if (utf8 source).length > maxSourceBytes then
    .error ⟨1, "spec exceeds the 1048576-byte source limit"⟩
  else do
    let (root, p) ← expr (.new source)
    let p := skipSpaceAndComments p
    if p.bytes ≠ [] then .error (p.error "expected exactly one top-level form")
    else return root

end Reading

end SpecReader
