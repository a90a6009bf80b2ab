import RocGui.SpecReader

/-! What the reader of specifications sees of a text's characters: the gaps between expressions and
the strings. -/
namespace SpecCharacters

open TextFormats SpecReader

section Characters

def isSpace (ch : Char) : Bool := ch = '\t' || ch = '\n' || ch = '\x0c' || ch = '\r' || ch = ' '

def isDelimiter (ch : Char) : Bool := isSpace ch || ch = '(' || ch = ')' || ch = ';'

def unescapeChar (ch : Char) : Option Char :=
  if ch = 'n' then some '\n'
  else if ch = 'r' then some '\r'
  else if ch = 't' then some '\t'
  else if ch = '"' then some '"'
  else if ch = '\\' then some '\\'
  else none

def newlines (text : Text) : ℕ := text.count '\n'

variable {ch : Char} {text front back : Text}

theorem newlines_append (front back : Text) : newlines (front ++ back) = newlines front + newlines back :=
  List.count_append

theorem newlines_cons (ch : Char) (text : Text) :
    newlines (ch :: text) = newlines text + if ch = '\n' then 1 else 0 := by
  rw [newlines, List.count_cons]
  simp only [beq_iff_eq]
  rfl

theorem utf8_append (front back : Text) : utf8 (front ++ back) = utf8 front ++ utf8 back :=
  List.flatMap_append

theorem utf8_nil : utf8 [] = [] := rfl

theorem utf8_cons (ch : Char) (text : Text) : utf8 (ch :: text) = String.utf8EncodeChar ch ++ utf8 text := rfl

theorem encode_ascii (h : ch.toNat < 128) : String.utf8EncodeChar ch = [UInt8.ofNat ch.toNat] := by
  have hle : ch.val.toNat ≤ 0x7f := Nat.le_of_lt_succ h
  rw [String.utf8EncodeChar, if_pos hle]
  rfl

theorem encode_other (h : 128 ≤ ch.toNat) : ∃ first rest, String.utf8EncodeChar ch = first :: rest ∧
    (∀ byte ∈ first :: rest, 128 ≤ byte.toNat) ∧ utf8Width first = some (rest.length + 1) := by
  have hmax : ch.val.toNat < 0x110000 := by
    rcases ch.valid with hv | hv
    · have : ch.val.toNat < 0xd800 := hv
      omega
    · exact hv.2
  have hmin : ¬ ch.val.toNat ≤ 0x7f := by
    have : ch.toNat = ch.val.toNat := rfl
    omega
  rw [String.utf8EncodeChar, if_neg hmin]
  by_cases htwo : ch.val.toNat ≤ 0x7ff
  · rw [if_pos htwo]
    refine ⟨_, _, rfl, ?_, ?_⟩
    · intro byte hb
      simp only [List.mem_cons, List.not_mem_nil, or_false] at hb
      rcases hb with rfl | rfl <;> simp only [UInt8.toNat_ofNat'] <;> omega
    · have hw : (ch.val.toNat / 64 % 32 + 0xc0) % 2 ^ 8 = ch.val.toNat / 64 + 0xc0 := by omega
      simp only [utf8Width, UInt8.toNat_ofNat', hw]
      rw [if_pos (by omega)]
      rfl
  rw [if_neg htwo]
  by_cases hthree : ch.val.toNat ≤ 0xffff
  · rw [if_pos hthree]
    refine ⟨_, _, rfl, ?_, ?_⟩
    · intro byte hb
      simp only [List.mem_cons, List.not_mem_nil, or_false] at hb
      rcases hb with rfl | rfl | rfl <;> simp only [UInt8.toNat_ofNat'] <;> omega
    · have hw : (ch.val.toNat / 4096 % 16 + 0xe0) % 2 ^ 8 = ch.val.toNat / 4096 + 0xe0 := by omega
      simp only [utf8Width, UInt8.toNat_ofNat', hw]
      rw [if_neg (by omega), if_pos (by omega)]
      rfl
  · rw [if_neg hthree]
    refine ⟨_, _, rfl, ?_, ?_⟩
    · intro byte hb
      simp only [List.mem_cons, List.not_mem_nil, or_false] at hb
      rcases hb with rfl | rfl | rfl | rfl <;> simp only [UInt8.toNat_ofNat'] <;> omega
    · have hw : (ch.val.toNat / 262144 % 8 + 0xf0) % 2 ^ 8 = ch.val.toNat / 262144 + 0xf0 := by omega
      simp only [utf8Width, UInt8.toNat_ofNat', hw]
      rw [if_neg (by omega), if_neg (by omega), if_pos (by omega)]
      rfl

theorem ascii_bytes : ∀ n < 128,
    isAsciiWhitespace (.ofNat n) = isSpace (.ofNat n) ∧ endsAtom (.ofNat n) = isDelimiter (.ofNat n) ∧
    unescape (.ofNat n) = unescapeChar (.ofNat n) ∧ (UInt8.ofNat n).toNat = n ∧
    (UInt8.ofNat n = newline ↔ Char.ofNat n = '\n') ∧ (UInt8.ofNat n = quote ↔ Char.ofNat n = '"') ∧
    (UInt8.ofNat n = opening ↔ Char.ofNat n = '(') ∧ (UInt8.ofNat n = closing ↔ Char.ofNat n = ')') ∧
    (UInt8.ofNat n = semicolon ↔ Char.ofNat n = ';') ∧
    (UInt8.ofNat n = backslash ↔ Char.ofNat n = '\\') := by
  decide

theorem high_byte {byte : UInt8} (h : 128 ≤ byte.toNat) :
    isAsciiWhitespace byte = false ∧ endsAtom byte = false ∧ unescape byte = none ∧
    byte ≠ newline ∧ byte ≠ quote ∧ byte ≠ opening ∧ byte ≠ closing ∧ byte ≠ semicolon ∧
    byte ≠ backslash := by
  have hne : ∀ low : UInt8, low.toNat < 128 → byte ≠ low := by
    rintro low hlow rfl
    omega
  have hspace : isAsciiWhitespace byte = false := by
    simp [isAsciiWhitespace, hne 9 (by decide), hne newline (by decide), hne 12 (by decide),
      hne 13 (by decide), hne space (by decide)]
  refine ⟨hspace, ?_, ?_, hne _ (by decide), hne _ (by decide), hne _ (by decide),
    hne _ (by decide), hne _ (by decide), hne _ (by decide)⟩
  · simp [endsAtom, hspace, hne opening (by decide), hne closing (by decide),
      hne semicolon (by decide)]
  · simp [unescape, hne 110 (by decide), hne 114 (by decide), hne 116 (by decide),
      hne quote (by decide), hne backslash (by decide)]

theorem high_char (h : 128 ≤ ch.toNat) :
    isSpace ch = false ∧ isDelimiter ch = false ∧ unescapeChar ch = none ∧
    ch ≠ '\n' ∧ ch ≠ '"' ∧ ch ≠ '(' ∧ ch ≠ ')' ∧ ch ≠ ';' ∧ ch ≠ '\\' := by
  have hne : ∀ low : Char, low.toNat < 128 → ch ≠ low := by
    rintro low hlow rfl
    omega
  have hspace : isSpace ch = false := by
    simp [isSpace, hne '\t' (by decide), hne '\n' (by decide), hne '\x0c' (by decide),
      hne '\r' (by decide), hne ' ' (by decide)]
  refine ⟨hspace, ?_, ?_, hne _ (by decide), hne _ (by decide), hne _ (by decide),
    hne _ (by decide), hne _ (by decide), hne _ (by decide)⟩
  · simp [isDelimiter, hspace, hne '(' (by decide), hne ')' (by decide), hne ';' (by decide)]
  · simp [unescapeChar, hne 'n' (by decide), hne 'r' (by decide), hne 't' (by decide),
      hne '"' (by decide), hne '\\' (by decide)]

/-- What the reader sees of a character: its first byte, which tells as much as the character. -/
structure FirstByte (ch : Char) (byte : UInt8) : Prop where
  whitespace : isAsciiWhitespace byte = isSpace ch
  ends : endsAtom byte = isDelimiter ch
  unescape : SpecReader.unescape byte = unescapeChar ch
  newline : byte = SpecReader.newline ↔ ch = '\n'
  quote : byte = SpecReader.quote ↔ ch = '"'
  opening : byte = SpecReader.opening ↔ ch = '('
  closing : byte = SpecReader.closing ↔ ch = ')'
  semicolon : byte = SpecReader.semicolon ↔ ch = ';'
  backslash : byte = SpecReader.backslash ↔ ch = '\\'

theorem encode_cases (ch : Char) :
    ∃ byte rest, String.utf8EncodeChar ch = byte :: rest ∧ FirstByte ch byte ∧
      (∀ other ∈ rest, 128 ≤ other.toNat) ∧
      (byte.toNat < 128 ∧ rest = [] ∧ ch = Char.ofNat byte.toNat ∨
        128 ≤ byte.toNat ∧ utf8Width byte = some (rest.length + 1)) := by
  by_cases h : ch.toNat < 128
  · have hch : Char.ofNat ch.toNat = ch := Char.ofNat_toNat ch
    obtain ⟨hw, he, hu, hn, h1, h2, h3, h4, h5, h6⟩ := ascii_bytes ch.toNat h
    rw [hch] at hw he hu h1 h2 h3 h4 h5 h6
    refine ⟨_, _, encode_ascii h, ⟨hw, he, hu, h1, h2, h3, h4, h5, h6⟩, nofun, .inl ⟨?_, rfl, ?_⟩⟩
    · rw [hn]
      exact h
    · rw [hn, hch]
  · have hle : 128 ≤ ch.toNat := by omega
    obtain ⟨first, rest, henc, hall, hwidth⟩ := encode_other hle
    have hfirst := hall first List.mem_cons_self
    obtain ⟨a1, a2, a3, a4, a5, a6, a7, a8, a9⟩ := high_byte hfirst
    obtain ⟨b1, b2, b3, b4, b5, b6, b7, b8, b9⟩ := high_char hle
    refine ⟨first, rest, henc, ⟨a1.trans b1.symm, a2.trans b2.symm, a3.trans b3.symm,
      iff_of_false a4 b4, iff_of_false a5 b5, iff_of_false a6 b6, iff_of_false a7 b7,
      iff_of_false a8 b8, iff_of_false a9 b9⟩, ?_, .inr ⟨hfirst, hwidth⟩⟩
    intro other ho
    exact hall other (List.mem_cons_of_mem _ ho)

end Characters

section Gaps

inductive Gap : Text → Prop where
  | nil : Gap []
  | space {ch gap} : isSpace ch → Gap gap → Gap (ch :: gap)
  | comment {body gap} : '\n' ∉ body → Gap gap → Gap (';' :: (body ++ '\n' :: gap))

/-- What may end a source: its last comment needs no newline. -/
inductive Tail : Text → Prop where
  | gap {gap} : Gap gap → Tail gap
  | comment {gap body} : Gap gap → '\n' ∉ body → Tail (gap ++ ';' :: body)

/-- A text that starts with an expression or with the end of a list. -/
def Solid (text : Text) : Prop := ∀ ch ∈ text.head?, isSpace ch = false ∧ ch ≠ ';'

variable {ch : Char} {text gap body rest : Text} {line : ℕ}

theorem skip_space (h : isSpace ch) :
    skip false (utf8 (ch :: text)) line = skip false (utf8 text) (line + newlines [ch]) := by
  obtain ⟨byte, more, henc, hfirst, -, hcases⟩ := encode_cases ch
  have hw : isAsciiWhitespace byte = true := hfirst.whitespace.trans h
  rcases hcases with ⟨-, rfl, -⟩ | ⟨hhigh, -⟩
  · rw [utf8_cons, henc, List.singleton_append, skip, if_pos hw]
    by_cases hn : ch = '\n'
    · rw [if_pos (hfirst.newline.mpr hn), hn]
      rfl
    · rw [if_neg (mt hfirst.newline.mp hn), newlines_cons, if_neg hn]
      rfl
  · rw [(high_byte hhigh).1] at hw
    cases hw

theorem skip_solid (h : Solid text) : skip false (utf8 text) line = (utf8 text, line) := by
  cases text with
  | nil => rfl
  | cons ch text =>
    obtain ⟨hspace, hsemi⟩ := h ch rfl
    obtain ⟨byte, more, henc, hfirst, -, -⟩ := encode_cases ch
    rw [utf8_cons, henc, List.cons_append, skip, if_neg (by simp [hfirst.whitespace, hspace]),
      if_neg (mt hfirst.semicolon.mp hsemi)]

theorem skip_high {bytes more : Bytes} (h : ∀ byte ∈ more, 128 ≤ byte.toNat) :
    skip true (more ++ bytes) line = skip true bytes line := by
  induction more with
  | nil => rfl
  | cons byte more ih =>
    obtain ⟨-, -, -, hn, -⟩ := high_byte (h byte List.mem_cons_self)
    rw [List.cons_append, skip, if_neg hn]
    exact ih fun other ho => h other (List.mem_cons_of_mem _ ho)

theorem skip_body (h : '\n' ∉ body) :
    skip true (utf8 (body ++ rest)) line = skip true (utf8 rest) line := by
  induction body with
  | nil => rfl
  | cons ch body ih =>
    obtain ⟨hne, hbody⟩ := not_or.mp (mt List.mem_cons.mpr h)
    obtain ⟨byte, more, henc, hfirst, hmore, -⟩ := encode_cases ch
    rw [List.cons_append, utf8_cons, henc, List.cons_append, skip,
      if_neg (mt hfirst.newline.mp (Ne.symm hne)), skip_high hmore]
    exact ih hbody

theorem skip_comment (h : '\n' ∉ body) :
    skip false (utf8 (';' :: (body ++ '\n' :: rest))) line = skip false (utf8 rest) (line + 1) := by
  have hstart : skip false (utf8 (';' :: (body ++ '\n' :: rest))) line =
      skip true (utf8 (body ++ '\n' :: rest)) line := rfl
  rw [hstart, skip_body h]
  rfl

theorem skip_last (h : '\n' ∉ body) : skip false (utf8 (';' :: body)) line = ([], line) := by
  have hstart : skip false (utf8 (';' :: body)) line = skip true (utf8 (body ++ [])) line := by
    rw [List.append_nil]
    rfl
  rw [hstart, skip_body h]
  rfl

theorem newlines_comment (h : '\n' ∉ body) :
    newlines (';' :: (body ++ '\n' :: gap)) = newlines gap + 1 := by
  have hbody : newlines body = 0 := List.count_eq_zero_of_not_mem h
  rw [newlines_cons, newlines_append, newlines_cons, if_pos rfl, if_neg (by decide), hbody]
  omega

theorem skip_gap (hgap : Gap gap) :
    skip false (utf8 (gap ++ rest)) line = skip false (utf8 rest) (line + newlines gap) := by
  induction hgap generalizing line with
  | nil => rfl
  | @space ch gap h _ ih =>
    rw [List.cons_append, skip_space h, ih, newlines_cons ch gap]
    congr 1
    rw [newlines_cons]
    change line + (0 + _) + _ = _
    omega
  | @comment body gap h _ ih =>
    rw [newlines_comment h, List.cons_append, List.append_assoc, List.cons_append, skip_comment h, ih]
    congr 1
    omega

theorem Tail.space (h : isSpace ch) (htail : Tail gap) : Tail (ch :: gap) := by
  cases htail with
  | gap hgap => exact .gap (.space h hgap)
  | comment hgap hbody => exact .comment (.space h hgap) hbody

theorem Tail.after (h : '\n' ∉ body) (htail : Tail gap) : Tail (';' :: (body ++ '\n' :: gap)) := by
  cases htail with
  | gap hgap => exact .gap (.comment h hgap)
  | @comment gap last hgap hlast =>
    have hall := Tail.comment (Gap.comment h hgap) hlast
    rwa [List.cons_append, List.append_assoc, List.cons_append] at hall

theorem skip_tail (htail : Tail text) : (skip false (utf8 text) line).1 = [] := by
  cases htail with
  | gap hgap =>
    have h : skip false (utf8 (text ++ [])) line = skip false (utf8 []) (line + newlines text) :=
      skip_gap hgap
    rw [List.append_nil] at h
    rw [h]
    rfl
  | comment hgap hbody => rw [skip_gap hgap, skip_last hbody]

theorem skip_splits (text : Text) (line : ℕ) : ∃ gap rest, text = gap ++ rest ∧
    skip false (utf8 text) line = (utf8 rest, line + newlines gap) ∧
    Solid rest ∧ Tail gap ∧ (rest ≠ [] → Gap gap) := by
  induction hlen : text.length using Nat.strongRecOn generalizing text line with
  | ind n ih =>
    subst hlen
    cases text with
    | nil => exact ⟨[], [], rfl, rfl, nofun, .gap .nil, fun _ => .nil⟩
    | cons ch text =>
      by_cases hspace : isSpace ch
      · obtain ⟨gap, rest, htext, hskip, hsolid, htail, hgap⟩ :=
          ih text.length (Nat.lt_succ_self _) text (line + newlines [ch]) rfl
        refine ⟨ch :: gap, rest, by rw [htext, List.cons_append], ?_, hsolid, htail.space hspace,
          fun h => .space hspace (hgap h)⟩
        rw [skip_space hspace, hskip, Nat.add_assoc]
        exact congrArg (fun k => (utf8 rest, line + k)) (newlines_append [ch] gap).symm
      by_cases hsemi : ch = ';'
      · subst hsemi
        by_cases hline : '\n' ∈ text
        · obtain ⟨body, text, rfl, hbody⟩ := List.eq_append_cons_of_mem hline
          have hlt : text.length < (';' :: (body ++ '\n' :: text)).length := by
            simp only [List.length_cons, List.length_append]
            omega
          obtain ⟨gap, rest, rfl, hskip, hsolid, htail, hgap⟩ := ih _ hlt text (line + 1) rfl
          refine ⟨';' :: (body ++ '\n' :: gap), rest, ?_, ?_, hsolid, htail.after hbody,
            fun h => .comment hbody (hgap h)⟩
          · rw [List.cons_append, List.append_assoc, List.cons_append]
          · rw [skip_comment hbody, hskip, newlines_comment hbody, Nat.add_assoc, Nat.add_comm 1]
        · refine ⟨';' :: text, [], (List.append_nil _).symm, ?_, nofun, .comment .nil hline,
            fun h => absurd rfl h⟩
          have hnone : newlines (';' :: text) = 0 := by
            rw [newlines_cons, if_neg (by decide)]
            exact List.count_eq_zero_of_not_mem hline
          rw [skip_last hline, hnone]
          rfl
      · have hsolid : Solid (ch :: text) := by
          rintro _ ⟨⟩
          exact ⟨Bool.eq_false_iff.mpr hspace, hsemi⟩
        exact ⟨[], ch :: text, rfl, skip_solid hsolid, hsolid, .gap .nil, fun _ => .nil⟩

theorem Gap.append (hgap : Gap gap) (hrest : Gap rest) : Gap (gap ++ rest) := by
  induction hgap with
  | nil => exact hrest
  | space h _ ih => exact .space h ih
  | comment h _ ih =>
    rw [List.cons_append, List.append_assoc, List.cons_append]
    exact .comment h ih

end Gaps

section Strings

inductive Pieces : Text → Text → Prop where
  | nil : Pieces [] []
  | raw {ch body value} : ch ≠ '"' → ch ≠ '\\' → Pieces body value → Pieces (ch :: body) (ch :: value)
  | escape {code ch body value} : unescapeChar code = some ch → Pieces body value →
    Pieces ('\\' :: code :: body) (ch :: value)

variable {ch code : Char} {acc text body value rest : Text} {line : ℕ}

theorem readString_quote : readString acc (utf8 ('"' :: text)) line = .ok (acc, utf8 text, line) := by
  have hbytes : utf8 ('"' :: text) = quote :: utf8 text := rfl
  rw [hbytes, readString.eq_def]
  dsimp only
  rw [if_pos rfl]

theorem readString_nil : readString acc (utf8 []) line = .error ⟨line, "unterminated string"⟩ := by
  have hbytes : utf8 [] = [] := rfl
  rw [hbytes, readString]

theorem readString_escape (h : unescapeChar code = some ch) :
    readString acc (utf8 ('\\' :: code :: text)) line = readString (acc ++ [ch]) (utf8 text) line := by
  obtain ⟨byte, more, henc, hfirst, -, hcases⟩ := encode_cases code
  have hcode : unescape byte = some ch := hfirst.unescape.trans h
  rcases hcases with ⟨-, rfl, -⟩ | ⟨hhigh, -⟩
  · have hbytes : utf8 ('\\' :: code :: text) = backslash :: byte :: utf8 text := by
      rw [utf8_cons, utf8_cons, henc]
      rfl
    rw [hbytes, readString.eq_def]
    dsimp only
    rw [if_neg (by decide), if_pos rfl]
    simp only [hcode]
  · rw [(high_byte hhigh).2.2.1] at hcode
    cases hcode

theorem readString_other (h : unescapeChar code = none) :
    ∃ e, readString acc (utf8 ('\\' :: code :: text)) line = .error e := by
  obtain ⟨byte, more, henc, hfirst, -, hcases⟩ := encode_cases code
  have hcode : unescape byte = none := hfirst.unescape.trans h
  have hbytes : utf8 ('\\' :: code :: text) = backslash :: byte :: (more ++ utf8 text) := by
    rw [utf8_cons, utf8_cons, henc]
    rfl
  refine ⟨⟨line, "unsupported string escape"⟩, ?_⟩
  rw [hbytes, readString.eq_def]
  dsimp only
  rw [if_neg (by decide), if_pos rfl]
  simp only [hcode]

theorem readString_backslash : ∃ e, readString acc (utf8 ['\\']) line = .error e := by
  have hbytes : utf8 ['\\'] = [backslash] := rfl
  refine ⟨⟨line, "unterminated escape"⟩, ?_⟩
  rw [hbytes, readString.eq_def]
  dsimp only
  rw [if_neg (by decide), if_pos rfl]

theorem readString_raw (hquote : ch ≠ '"') (hback : ch ≠ '\\') :
    readString acc (utf8 (ch :: text)) line =
      readString (acc ++ [ch]) (utf8 text) (line + newlines [ch]) := by
  obtain ⟨byte, more, henc, hfirst, -, hcases⟩ := encode_cases ch
  have hq : byte ≠ quote := mt hfirst.quote.mp hquote
  have hb : byte ≠ backslash := mt hfirst.backslash.mp hback
  by_cases hn : ch = '\n'
  · subst hn
    have hbytes : utf8 ('\n' :: text) = newline :: utf8 text := rfl
    rw [hbytes, readString.eq_def]
    dsimp only
    rw [if_neg (by decide), if_neg (by decide), if_pos rfl]
    rfl
  have hnone : newlines [ch] = 0 := by
    rw [newlines_cons, if_neg hn]
    rfl
  rw [hnone, Nat.add_zero, utf8_cons, henc, List.cons_append, readString.eq_def]
  dsimp only
  rw [if_neg hq, if_neg hb, if_neg (mt hfirst.newline.mp hn)]
  rcases hcases with ⟨hlow, rfl, hch⟩ | ⟨hhigh, hwidth⟩
  · rw [if_pos hlow, ← hch, List.nil_append]
  · -- the character's own bytes decode to it
    have hchar : utf8 [ch] = byte :: more := by
      rw [utf8_cons, henc, utf8_nil, List.append_nil]
    have htake : (byte :: (more ++ utf8 text)).take (more.length + 1) = utf8 [ch] := by
      rw [hchar, List.take_succ_cons, List.take_left]
    have hlong : ¬ (byte :: (more ++ utf8 text)).length < more.length + 1 := by
      simp only [List.length_cons, List.length_append]
      omega
    rw [if_neg (by omega)]
    simp only [hwidth, if_neg hlong, htake, fromUtf8_utf8, Nat.add_sub_cancel, List.drop_left]

theorem readString_pieces (hpieces : Pieces body value) :
    readString acc (utf8 (body ++ '"' :: rest)) line =
      .ok (acc ++ value, utf8 rest, line + newlines body) := by
  induction hpieces generalizing acc line with
  | nil => rw [List.nil_append, readString_quote, List.append_nil]; rfl
  | @raw ch body value hquote hback _ ih =>
    rw [List.cons_append, readString_raw hquote hback, ih, List.append_assoc, List.singleton_append,
      Nat.add_assoc]
    exact congrArg (fun k => Except.ok (acc ++ ch :: value, utf8 rest, line + k))
      (newlines_append [ch] body).symm
  | @escape code ch body value hcode _ ih =>
    have hne : code ≠ '\n' := by
      rintro rfl
      cases hcode
    rw [List.cons_append, List.cons_append, readString_escape hcode, ih, List.append_assoc,
      List.singleton_append, newlines_cons, newlines_cons, if_neg hne, if_neg (by decide),
      Nat.add_zero]

theorem readString_prints {acc text : Text} {line : ℕ} {result : Text × Bytes × ℕ}
    (h : readString acc (utf8 text) line = .ok result) :
    ∃ body value rest, text = body ++ '"' :: rest ∧ Pieces body value ∧
      result = (acc ++ value, utf8 rest, line + newlines body) := by
  induction hlen : text.length using Nat.strongRecOn generalizing acc text line with
  | ind n ih =>
    subst hlen
    cases text with
    | nil =>
      rw [readString_nil] at h
      cases h
    | cons ch text =>
      by_cases hquote : ch = '"'
      · subst hquote
        rw [readString_quote] at h
        cases h
        exact ⟨[], [], text, rfl, .nil, by rw [List.append_nil]; rfl⟩
      by_cases hback : ch = '\\'
      · subst hback
        cases text with
        | nil =>
          obtain ⟨e, he⟩ := @readString_backslash acc line
          rw [he] at h
          cases h
        | cons code text =>
          cases hcode : unescapeChar code with
          | none =>
            obtain ⟨e, he⟩ := @readString_other code acc text line hcode
            rw [he] at h
            cases h
          | some ch =>
            have hlt : text.length < ('\\' :: code :: text).length := by
              simp only [List.length_cons]
              omega
            rw [readString_escape hcode] at h
            obtain ⟨body, value, rest, rfl, hpieces, rfl⟩ := ih _ hlt h rfl
            have hprint := Pieces.escape hcode hpieces
            refine ⟨_, _, rest, rfl, hprint, ?_⟩
            have hread := @readString_pieces acc _ _ rest line hprint
            rw [List.cons_append, List.cons_append, readString_escape hcode,
              readString_pieces hpieces] at hread
            exact Except.ok.inj hread
      · rw [readString_raw hquote hback] at h
        obtain ⟨body, value, rest, rfl, hpieces, rfl⟩ := ih _ (Nat.lt_succ_self _) h rfl
        have hprint := Pieces.raw hquote hback hpieces
        refine ⟨_, _, rest, rfl, hprint, ?_⟩
        have hread := @readString_pieces acc _ _ rest line hprint
        rw [List.cons_append, readString_raw hquote hback, readString_pieces hpieces] at hread
        exact Except.ok.inj hread

end Strings

end SpecCharacters
