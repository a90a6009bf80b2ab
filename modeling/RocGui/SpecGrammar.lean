import RocGui.SpecCharacters

/-! The texts of the specification grammar, which are the ways to print an expression, and that
the reader accepts these and no others. -/
namespace SpecGrammar

open TextFormats SpecReader SpecCharacters

section Symbols

def Delimited (text : Text) : Prop := ∀ ch ∈ text.head?, isDelimiter ch = true

variable {text value rest : Text} {line n : ℕ}

theorem atom_bytes (text : Text) :
    ((utf8 text).takeWhile fun byte => !endsAtom byte) = utf8 (text.takeWhile fun ch => !isDelimiter ch) ∧
    ((utf8 text).dropWhile fun byte => !endsAtom byte) = utf8 (text.dropWhile fun ch => !isDelimiter ch) := by
  induction text with
  | nil => exact ⟨rfl, rfl⟩
  | cons ch text ih =>
    obtain ⟨byte, more, henc, hfirst, hmore, -⟩ := encode_cases ch
    by_cases hend : isDelimiter ch
    · have hbyte : endsAtom byte = true := hfirst.ends.trans hend
      constructor
      · rw [utf8_cons, henc, List.cons_append, List.takeWhile_cons_of_neg (by simp [hbyte]),
          List.takeWhile_cons_of_neg (by simp [hend]), utf8_nil]
      · rw [utf8_cons, henc, List.cons_append, List.dropWhile_cons_of_neg (by simp [hbyte]),
          List.dropWhile_cons_of_neg (by simp [hend]), utf8_cons, henc, List.cons_append]
    · have hall : ∀ other ∈ byte :: more, (!endsAtom other) = true := by
        intro other ho
        rcases List.mem_cons.mp ho with rfl | ho
        · simp [hfirst.ends, hend]
        · simp [(high_byte (hmore other ho)).2.1]
      constructor
      · rw [utf8_cons, henc, List.takeWhile_append_of_pos hall, ih.1,
          List.takeWhile_cons_of_pos (by simp [hend]), utf8_cons, henc]
      · rw [utf8_cons, henc, List.dropWhile_append_of_pos hall, ih.2,
          List.dropWhile_cons_of_pos (by simp [hend])]

theorem atom_reads (text : Text) (line n k : ℕ) : atom ⟨utf8 text, line, n⟩ k =
    .ok (.atom (text.takeWhile fun ch => !isDelimiter ch) k,
      ⟨utf8 (text.dropWhile fun ch => !isDelimiter ch), line, n⟩) := by
  obtain ⟨htake, hdrop⟩ := atom_bytes text
  simp only [atom, htake, hdrop, fromUtf8_utf8]

theorem delimited_rest (text : Text) : Delimited (text.dropWhile fun ch => !isDelimiter ch) := by
  intro ch hch
  have h := List.head?_dropWhile_not (fun ch => !isDelimiter ch) text
  rw [hch] at h
  simpa using h

theorem split_symbol (hvalue : ∀ ch ∈ value, isDelimiter ch = false) (hrest : Delimited rest) :
    ((value ++ rest).takeWhile fun ch => !isDelimiter ch) = value ∧
    ((value ++ rest).dropWhile fun ch => !isDelimiter ch) = rest := by
  have hall : ∀ ch ∈ value, (!isDelimiter ch) = true := by
    intro ch hch
    rw [hvalue ch hch]
    rfl
  rw [List.takeWhile_append_of_pos hall, List.dropWhile_append_of_pos hall]
  cases rest with
  | nil => exact ⟨List.append_nil _, rfl⟩
  | cons ch rest =>
    have hch := hrest ch rfl
    rw [List.takeWhile_cons_of_neg (by simp [hch]), List.dropWhile_cons_of_neg (by simp [hch])]
    exact ⟨List.append_nil _, rfl⟩

end Symbols

section Grammar

def isAtom : SExpr → Bool
  | .atom .. => true
  | _ => false

mutual

/-- How many lists an expression's innermost ones are in. -/
def depth : SExpr → ℕ
  | .list values _ => depthAll values
  | _ => 0

def depthAll : List SExpr → ℕ
  | [] => 0
  | value :: values => max (depth value + 1) (depthAll values)

end

mutual

def size : SExpr → ℕ
  | .list values _ => sizeAll values + 1
  | _ => 1

def sizeAll : List SExpr → ℕ
  | [] => 0
  | value :: values => size value + sizeAll values

end

mutual

/-- The ways to print an expression that starts on a line. -/
inductive Prints : ℕ → SExpr → Text → Prop where
  | atom {line value} : value ≠ [] → value.head? ≠ some '"' → (∀ ch ∈ value, isDelimiter ch = false) →
    Prints line (.atom value line) value
  | string {line body value} : Pieces body value → Prints line (.string value line) ('"' :: (body ++ ['"']))
  | list {line values inner gap} : PrintsAll line values inner → Gap gap →
    Prints line (.list values line) ('(' :: (inner ++ (gap ++ [')'])))

/-- The ways to print the expressions of a list. A symbol takes a delimiter after it. -/
inductive PrintsAll : ℕ → List SExpr → Text → Prop where
  | nil {line} : PrintsAll line [] []
  | cons {line gap text rest value values} : Gap gap → Prints (line + newlines gap) value text →
    (isAtom value → Delimited rest) → PrintsAll (line + newlines gap + newlines text) values rest →
    PrintsAll line (value :: values) (gap ++ (text ++ rest))

end

variable {tree : SExpr} {values : List SExpr} {text rest lead gap : Text} {line start n levels fuel : ℕ}

theorem prints_head (h : Prints line tree text) :
    ∃ ch more, text = ch :: more ∧ isSpace ch = false ∧ ch ≠ ';' ∧ ch ≠ ')' := by
  cases h with
  | atom hne _ hall =>
    cases text with
    | nil => exact absurd rfl hne
    | cons ch more =>
      have hch := hall ch List.mem_cons_self
      simp only [isDelimiter, Bool.or_eq_false_iff, decide_eq_false_iff_not] at hch
      obtain ⟨⟨⟨hspace, -⟩, hclose⟩, hsemi⟩ := hch
      exact ⟨ch, more, rfl, hspace, hsemi, hclose⟩
  | string => exact ⟨_, _, rfl, by decide, by decide, by decide⟩
  | list => exact ⟨_, _, rfl, by decide, by decide, by decide⟩

end Grammar

section Steps

variable {text rest : Text} {line start n levels fuel : ℕ}

theorem exprAtDepth_skips (hn : n < maxExpressions) (hskip : skip false (utf8 text) start = (utf8 rest, line)) :
    exprAtDepth (levels + 1) ⟨utf8 text, start, n⟩ = match rest with
      | [] => .error ⟨line, "expected expression"⟩
      | ch :: more =>
        if ch = '(' then do
          let (values, after) ← items (exprAtDepth levels) ((utf8 more).length + 1) ⟨utf8 more, line, n + 1⟩
          return (.list values line, after)
        else if ch = '"' then string ⟨utf8 (ch :: more), line, n + 1⟩ line
        else if ch = ')' then .error ⟨line, "unexpected ')'"⟩
        else atom ⟨utf8 (ch :: more), line, n + 1⟩ line := by
  have hle : ¬ n + 1 > maxExpressions := by omega
  rw [exprAtDepth]
  dsimp only
  rw [if_neg hle]
  simp only [skipSpaceAndComments, hskip]
  cases rest with
  | nil => rfl
  | cons ch more =>
    by_cases hopen : ch = '('
    · subst hopen
      rfl
    by_cases hquote : ch = '"'
    · subst hquote
      rfl
    by_cases hclose : ch = ')'
    · subst hclose
      rfl
    obtain ⟨byte, tail, henc, hfirst, -, -⟩ := encode_cases ch
    have hbytes : utf8 (ch :: more) = byte :: (tail ++ utf8 more) := by
      rw [utf8_cons, henc, List.cons_append]
    dsimp only
    rw [hbytes]
    dsimp only
    rw [if_neg (mt hfirst.opening.mp hopen), if_neg (mt hfirst.quote.mp hquote),
      if_neg (mt hfirst.closing.mp hclose), if_neg hopen, if_neg hquote, if_neg hclose]

theorem items_skips {read : Parser → Except ParseError (SExpr × Parser)}
    (hskip : skip false (utf8 text) start = (utf8 rest, line)) :
    items read (fuel + 1) ⟨utf8 text, start, n⟩ = match rest with
      | [] => .error ⟨line, "unterminated list"⟩
      | ch :: more =>
        if ch = ')' then .ok ([], ⟨utf8 more, line, n⟩)
        else do
          let (value, p) ← read ⟨utf8 (ch :: more), line, n⟩
          let (values, p) ← items read fuel p
          return (value :: values, p) := by
  rw [items]
  simp only [skipSpaceAndComments, hskip]
  cases rest with
  | nil => rfl
  | cons ch more =>
    by_cases hclose : ch = ')'
    · subst hclose
      rfl
    obtain ⟨byte, tail, henc, hfirst, -, -⟩ := encode_cases ch
    have hbytes : utf8 (ch :: more) = byte :: (tail ++ utf8 more) := by
      rw [utf8_cons, henc, List.cons_append]
    dsimp only
    rw [hbytes]
    dsimp only
    rw [if_neg (mt hfirst.closing.mp hclose), if_neg hclose]

end Steps

section Completeness

variable {tree : SExpr} {values : List SExpr} {text rest lead gap : Text} {line start n levels fuel : ℕ}

theorem delimited_append (htext : Delimited text) (hrest : Delimited rest) : Delimited (text ++ rest) := by
  cases text with
  | nil => exact hrest
  | cons ch text => exact htext

theorem gap_delimited (hgap : Gap gap) : Delimited gap := by
  cases hgap with
  | nil => exact nofun
  | @space ch _ h _ =>
    rintro _ ⟨⟩
    rw [isDelimiter, h]
    rfl
  | comment =>
    rintro _ ⟨⟩
    decide

theorem list_length (h : PrintsAll line values text) : values.length ≤ text.length := by
  induction values generalizing line text with
  | nil => exact Nat.zero_le _
  | cons value values ih =>
    cases h with
    | cons hgap hvalue _ hvalues =>
      obtain ⟨ch, more, rfl, -⟩ := prints_head hvalue
      have hle := ih hvalues
      simp only [List.length_cons, List.length_append]
      omega

theorem length_utf8 (text : Text) : text.length ≤ (utf8 text).length := by
  induction text with
  | nil => exact Nat.zero_le _
  | cons ch text ih =>
    obtain ⟨byte, more, henc, -⟩ := encode_cases ch
    rw [utf8_cons, henc, List.length_append]
    simp only [List.length_cons]
    omega

theorem size_pos (tree : SExpr) : 0 < size tree := by
  cases tree <;> simp [size]

theorem skip_lead (hgap : Gap lead) (hsolid : Solid rest) :
    skip false (utf8 (lead ++ rest)) start = (utf8 rest, start + newlines lead) := by
  rw [skip_gap hgap, skip_solid hsolid]

/-- The reader with this many levels left reads back what was printed, from where it stands. -/
def ReadsBack (levels : ℕ) : Prop :=
  ∀ {line start n tree text lead rest}, Prints line tree text → depth tree < levels →
    n + size tree ≤ maxExpressions → (isAtom tree → Delimited rest) → Gap lead →
    line = start + newlines lead →
    exprAtDepth levels ⟨utf8 (lead ++ (text ++ rest)), start, n⟩ =
      .ok (tree, ⟨utf8 rest, line + newlines text, n + size tree⟩)

theorem items_of_prints (hread : ReadsBack levels) (hvalues : PrintsAll line values text)
    (hdepth : depthAll values ≤ levels) (hn : n + sizeAll values ≤ maxExpressions) (hgap : Gap gap)
    (hfuel : values.length < fuel) :
    items (exprAtDepth levels) fuel ⟨utf8 (text ++ (gap ++ ')' :: rest)), line, n⟩ =
      .ok (values, ⟨utf8 rest, line + newlines text + newlines gap, n + sizeAll values⟩) := by
  induction values generalizing line text n fuel with
  | nil =>
    cases hvalues
    obtain ⟨fuel, rfl⟩ : ∃ k, fuel = k + 1 := ⟨fuel - 1, by omega⟩
    have hsolid : Solid (')' :: rest) := by
      rintro _ ⟨⟩
      exact ⟨by decide, by decide⟩
    rw [List.nil_append, items_skips (skip_lead hgap hsolid)]
    rfl
  | cons value values ih =>
    obtain ⟨fuel, rfl⟩ : ∃ k, fuel = k + 1 := ⟨fuel - 1, by omega⟩
    cases hvalues with
    | @cons _ lead head tail _ _ hlead hvalue hdelimited hvalues =>
      obtain ⟨ch, more, rfl, hspace, hsemi, hclose⟩ := prints_head hvalue
      rw [depthAll] at hdepth
      rw [sizeAll] at hn
      have hsolid : Solid (ch :: more ++ (tail ++ (gap ++ ')' :: rest))) := by
        rintro _ ⟨⟩
        exact ⟨hspace, hsemi⟩
      have hafter : isAtom value → Delimited (tail ++ (gap ++ ')' :: rest)) := by
        intro hatom
        have hclosing : Delimited (')' :: rest) := by
          rintro _ ⟨⟩
          decide
        exact delimited_append (hdelimited hatom)
          (delimited_append (gap_delimited hgap) hclosing)
      have hfirst := @hread _ (line + newlines lead) n _ _ [] _ hvalue (by omega)
        (by omega) hafter .nil rfl
      have hothers := @ih _ _ (n + size value) fuel hvalues (by omega) (by omega)
        (by simp only [List.length_cons] at hfuel; omega)
      have hlines : line + newlines lead + newlines (ch :: more) + newlines tail + newlines gap =
          line + newlines (lead ++ (ch :: more ++ tail)) + newlines gap := by
        rw [newlines_append, newlines_append]
        omega
      rw [List.append_assoc, List.append_assoc, items_skips (skip_lead hlead hsolid)]
      dsimp only [List.cons_append] at hfirst ⊢
      rw [if_neg hclose]
      rw [List.nil_append] at hfirst
      rw [hfirst]
      dsimp only [bind, Except.bind]
      rw [hothers]
      dsimp only [pure, Except.pure]
      rw [sizeAll, hlines, Nat.add_assoc n]
      rfl

theorem newlines_symbol (h : ∀ ch ∈ text, isDelimiter ch = false) : newlines text = 0 := by
  apply List.count_eq_zero_of_not_mem
  intro hmem
  have hline := h '\n' hmem
  revert hline
  decide

theorem string_reads (text : Text) (line n k : ℕ) : string ⟨utf8 ('"' :: text), line, n⟩ k = do
    let (value, bytes, after) ← readString [] (utf8 text) line
    return (.string value k, ⟨bytes, after, n⟩) := rfl

/-- By induction on the levels left, which a list's expressions have one less of. -/
theorem expr_of_prints (levels : ℕ) : ReadsBack levels := by
  induction levels with
  | zero => exact fun _ h => absurd h (Nat.not_lt_zero _)
  | succ levels ih =>
    intro line start n tree text lead rest h hdepth hn hrest hgap hline
    obtain ⟨ch, more, hhead, hspace, hsemi, hclose⟩ := prints_head h
    have hsolid : Solid (text ++ rest) := by
      subst hhead
      rintro _ ⟨⟩
      exact ⟨hspace, hsemi⟩
    have hskip := @skip_lead _ _ start hgap hsolid
    have hlt : n < maxExpressions := by
      have := size_pos tree
      omega
    rw [← hline] at hskip
    rw [exprAtDepth_skips hlt hskip]
    cases h with
    | atom hne hquote hall =>
      obtain ⟨htake, hdrop⟩ := split_symbol hall (hrest rfl)
      have hlines := newlines_symbol hall
      subst hhead
      have hopen : ch ≠ '(' := by
        rintro rfl
        exact absurd (hall '(' List.mem_cons_self) (by decide)
      have hstart : ch ≠ '"' := by
        rintro rfl
        exact hquote rfl
      dsimp only [List.cons_append] at htake hdrop ⊢
      rw [if_neg hopen, if_neg hstart, if_neg hclose, atom_reads, htake, hdrop, hlines]
      rfl
    | @string _ body value hpieces =>
      have hread := @readString_pieces [] _ _ rest line hpieces
      have hlines : newlines ('"' :: (body ++ ['"'])) = newlines body := by
        rw [newlines_cons, newlines_append, if_neg (by decide)]
        rfl
      dsimp only [List.cons_append]
      rw [if_neg (by decide), if_pos rfl, string_reads, List.append_assoc, List.singleton_append, hread,
        hlines]
      rfl
    | @list _ values inner last hvalues hlast =>
      rw [depth] at hdepth
      rw [size] at hn
      have hfuel : values.length < (utf8 (inner ++ (last ++ ')' :: rest))).length + 1 := by
        have hlong := length_utf8 (inner ++ (last ++ ')' :: rest))
        have hcount := list_length hvalues
        rw [List.length_append] at hlong
        omega
      have hread := @items_of_prints _ _ rest _ _ (n + 1) _ _ ih hvalues (by omega) (by omega) hlast
        hfuel
      have hlines : newlines ('(' :: (inner ++ (last ++ [')']))) = newlines inner + newlines last := by
        rw [newlines_cons, newlines_append, newlines_append, if_neg (by decide)]
        rfl
      have hsize : n + 1 + sizeAll values = n + (sizeAll values + 1) := by omega
      dsimp only [List.cons_append]
      rw [if_pos rfl, List.append_assoc, List.append_assoc, List.singleton_append, hread, hlines, size,
        ← hsize, ← Nat.add_assoc]
      rfl

end Completeness

section Soundness

/-- What the reader with this many levels left accepts is a print, up to what follows it. -/
def ReadsPrints (levels : ℕ) : Prop :=
  ∀ {text start n tree p}, exprAtDepth levels ⟨utf8 text, start, n⟩ = .ok (tree, p) →
    ∃ lead body rest, text = lead ++ (body ++ rest) ∧ Gap lead ∧ Prints (start + newlines lead) tree body ∧
      (isAtom tree → Delimited rest) ∧ depth tree < levels ∧ n + size tree ≤ maxExpressions ∧
      p = ⟨utf8 rest, start + newlines lead + newlines body, n + size tree⟩

variable {values : List SExpr} {text : Text} {p : Parser} {start n levels fuel : ℕ}

theorem items_print (hread : ReadsPrints levels) (hn : n ≤ maxExpressions)
    (h : items (exprAtDepth levels) fuel ⟨utf8 text, start, n⟩ = .ok (values, p)) :
    ∃ inner gap rest, text = inner ++ (gap ++ ')' :: rest) ∧ PrintsAll start values inner ∧ Gap gap ∧
      depthAll values ≤ levels ∧ n + sizeAll values ≤ maxExpressions ∧
      p = ⟨utf8 rest, start + newlines inner + newlines gap, n + sizeAll values⟩ := by
  induction fuel generalizing text start n values p with
  | zero => cases h
  | succ fuel ih =>
    obtain ⟨gap, rest, rfl, hskip, hsolid, -, hlead⟩ := skip_splits text start
    rw [items_skips hskip] at h
    cases rest with
    | nil => cases h
    | cons ch more =>
      have hgap : Gap gap := hlead (List.cons_ne_nil _ _)
      by_cases hclose : ch = ')'
      · subst hclose
        cases h
        exact ⟨[], gap, more, rfl, .nil, hgap, Nat.zero_le _, hn, rfl⟩
      · dsimp only at h
        rw [if_neg hclose] at h
        cases hfirst : exprAtDepth levels ⟨utf8 (ch :: more), start + newlines gap, n⟩ with
        | error e =>
          rw [hfirst] at h
          cases h
        | ok first =>
          obtain ⟨value, after⟩ := first
          rw [hfirst] at h
          dsimp only [bind, Except.bind] at h
          obtain ⟨lead, body, rest, htext, hlead, hvalue, hdelimited, hdepth, hsize, rfl⟩ := hread hfirst
          cases hothers : items (exprAtDepth levels) fuel
              ⟨utf8 rest, start + newlines gap + newlines lead + newlines body, n + size value⟩ with
          | error e =>
            rw [hothers] at h
            cases h
          | ok others =>
            obtain ⟨others, last⟩ := others
            rw [hothers] at h
            cases h
            obtain ⟨inner, final, rest, rfl, hvalues, hfinal, hdepths, hsizes, rfl⟩ := ih hsize hothers
            have hlines : newlines (gap ++ lead) = newlines gap + newlines lead := newlines_append ..
            rw [Nat.add_assoc start, ← hlines] at hvalue hvalues ⊢
            have hinner : isAtom value → Delimited inner := by
              intro hatom
              cases inner with
              | nil => exact nofun
              | cons ch inner => exact hdelimited hatom
            refine ⟨(gap ++ lead) ++ (body ++ inner), final, rest, ?_, .cons (hgap.append hlead) hvalue
              hinner hvalues, hfinal, ?_, ?_, ?_⟩
            · rw [htext]
              simp only [List.append_assoc]
            · exact Nat.max_le.mpr ⟨hdepth, hdepths⟩
            · dsimp only [sizeAll]
              omega
            · dsimp only
              rw [newlines_append (gap ++ lead), newlines_append body, sizeAll]
              congr 1 <;> omega

theorem expr_prints (levels : ℕ) : ReadsPrints levels := by
  induction levels with
  | zero =>
    intro text start n tree p h
    cases h
  | succ levels ih =>
    intro text start n tree p h
    by_cases hn : n < maxExpressions
    · obtain ⟨lead, rest, rfl, hskip, hsolid, -, hlead⟩ := skip_splits text start
      rw [exprAtDepth_skips hn hskip] at h
      cases rest with
      | nil => cases h
      | cons ch more =>
        have hgap : Gap lead := hlead (List.cons_ne_nil _ _)
        dsimp only at h
        by_cases hopen : ch = '('
        · subst hopen
          rw [if_pos rfl] at h
          cases hitems : items (exprAtDepth levels) ((utf8 more).length + 1)
              ⟨utf8 more, start + newlines lead, n + 1⟩ with
          | error e =>
            rw [hitems] at h
            cases h
          | ok result =>
            obtain ⟨values, after⟩ := result
            rw [hitems] at h
            cases h
            obtain ⟨inner, last, rest, rfl, hvalues, hlast, hdepth, hsize, rfl⟩ := items_print ih hn hitems
            refine ⟨lead, '(' :: (inner ++ (last ++ [')'])), rest, ?_, hgap, .list hvalues hlast, nofun,
              Nat.lt_succ_of_le hdepth, ?_, ?_⟩
            · simp only [List.cons_append, List.append_assoc, List.nil_append]
            · dsimp only [size]
              omega
            · have hlines : newlines ('(' :: (inner ++ (last ++ [')']))) = newlines inner + newlines last := by
                rw [newlines_cons, newlines_append, newlines_append, if_neg (by decide)]
                rfl
              dsimp only
              rw [hlines, size]
              congr 1 <;> omega
        rw [if_neg hopen] at h
        by_cases hquote : ch = '"'
        · subst hquote
          rw [if_pos rfl, string_reads] at h
          cases hstring : readString [] (utf8 more) (start + newlines lead) with
          | error e =>
            rw [hstring] at h
            cases h
          | ok result =>
            obtain ⟨body, value, rest, rfl, hpieces, rfl⟩ := readString_prints hstring
            rw [hstring] at h
            cases h
            refine ⟨lead, '"' :: (body ++ ['"']), rest, ?_, hgap, .string hpieces, nofun,
              Nat.succ_pos _, hn, ?_⟩
            · simp only [List.cons_append, List.append_assoc, List.nil_append]
            · rw [newlines_cons, newlines_append, if_neg (by decide)]
              rfl
        rw [if_neg hquote] at h
        by_cases hclose : ch = ')'
        · rw [if_pos hclose] at h
          cases h
        rw [if_neg hclose, atom_reads] at h
        cases h
        obtain ⟨hspace, hsemi⟩ := hsolid ch rfl
        have hplain : isDelimiter ch = false := by
          simp [isDelimiter, hspace, hopen, hclose, hsemi]
        have hall : ∀ other ∈ (ch :: more).takeWhile fun ch => !isDelimiter ch,
            isDelimiter other = false := by
          intro other ho
          simpa using List.all_eq_true.mp List.all_takeWhile other ho
        refine ⟨lead, _, _, ?_, hgap, .atom ?_ ?_ hall, fun _ => delimited_rest (ch :: more),
          Nat.succ_pos _, hn, ?_⟩
        · rw [List.takeWhile_append_dropWhile]
        · rw [List.takeWhile_cons_of_pos (by simp [hplain])]
          exact List.cons_ne_nil _ _
        · rw [List.takeWhile_cons_of_pos (by simp [hplain])]
          simpa using hquote
        · rw [newlines_symbol hall]
          rfl
    · have hgt : n + 1 > maxExpressions := by omega
      rw [exprAtDepth] at h
      dsimp only at h
      rw [if_pos hgt] at h
      cases h

/-- The length of what is left is fuel enough. -/
theorem items_enough (hfuel : (utf8 text).length < fuel) (more : ℕ) :
    items (exprAtDepth levels) (fuel + more) ⟨utf8 text, start, n⟩ =
      items (exprAtDepth levels) fuel ⟨utf8 text, start, n⟩ := by
  induction fuel generalizing text start n with
  | zero => exact absurd hfuel (Nat.not_lt_zero _)
  | succ fuel ih =>
    obtain ⟨gap, rest, rfl, hskip, -, -, -⟩ := skip_splits text start
    rw [Nat.succ_add, items_skips hskip, items_skips hskip]
    cases rest with
    | nil => rfl
    | cons ch others =>
      dsimp only
      by_cases hclose : ch = ')'
      · rw [if_pos hclose, if_pos hclose]
      rw [if_neg hclose, if_neg hclose]
      cases hfirst : exprAtDepth levels ⟨utf8 (ch :: others), start + newlines gap, n⟩ with
      | error e => rfl
      | ok first =>
        obtain ⟨value, after⟩ := first
        obtain ⟨lead, body, rest, htext, -, hvalue, -, -, -, rfl⟩ := expr_prints levels hfirst
        obtain ⟨first, tail, rfl, -⟩ := prints_head hvalue
        have hshorter : (utf8 rest).length < fuel := by
          have hpos : 0 < (utf8 (first :: tail)).length :=
            Nat.lt_of_lt_of_le (Nat.succ_pos tail.length) (length_utf8 (first :: tail))
          rw [utf8_append, List.length_append, htext, utf8_append, List.length_append, utf8_append,
            List.length_append] at hfuel
          omega
        dsimp only [bind, Except.bind]
        rw [ih hshorter]

end Soundness

section Sources

/-- A source of an expression: a print of it between gaps, of which the first line is 1. -/
def Sources (tree : SExpr) (source : Text) : Prop :=
  ∃ lead text tail, source = lead ++ (text ++ tail) ∧ Gap lead ∧
    Prints (1 + newlines lead) tree text ∧ Tail tail

mutual

def plain : SExpr → SExpr
  | .atom value _ => .atom value 0
  | .string value _ => .string value 0
  | .list values _ => .list (plainAll values) 0

def plainAll : List SExpr → List SExpr
  | [] => []
  | value :: values => plain value :: plainAll values

end

mutual

/-- The symbols of an expression are such that there is a text for each. -/
def Printable : SExpr → Prop
  | .atom value _ => value ≠ [] ∧ value.head? ≠ some '"' ∧ ∀ ch ∈ value, isDelimiter ch = false
  | .string .. => True
  | .list values _ => PrintableAll values

def PrintableAll : List SExpr → Prop
  | [] => True
  | value :: values => Printable value ∧ PrintableAll values

end

theorem tail_delimited {tail : Text} (h : Tail tail) : Delimited tail := by
  cases h with
  | gap hgap => exact gap_delimited hgap
  | @comment gap body hgap _ =>
    have hsemi : Delimited (';' :: body) := by
      rintro _ ⟨⟩
      decide
    exact delimited_append (gap_delimited hgap) hsemi

theorem string_prints (value : Text) : ∃ body, Pieces body value := by
  induction value with
  | nil => exact ⟨[], .nil⟩
  | cons ch value ih =>
    obtain ⟨body, hbody⟩ := ih
    by_cases hquote : ch = '"'
    · exact ⟨'\\' :: '"' :: body, .escape (by rw [hquote]; rfl) hbody⟩
    by_cases hback : ch = '\\'
    · exact ⟨'\\' :: '\\' :: body, .escape (by rw [hback]; rfl) hbody⟩
    · exact ⟨ch :: body, .raw hquote hback hbody⟩

mutual

theorem printable_prints (tree : SExpr) (line : ℕ) (h : Printable tree) :
    ∃ located text, plain located = plain tree ∧ Prints line located text :=
  match tree with
  | .atom value _ => ⟨.atom value line, value, rfl, .atom h.1 h.2.1 h.2.2⟩
  | .string value _ =>
    have ⟨_, hbody⟩ := string_prints value
    ⟨.string value line, _, rfl, .string hbody⟩
  | .list values _ =>
    have ⟨located, _, hsame, _, hvalues⟩ := printable_all values line h
    ⟨.list located line, _, congrArg (SExpr.list · 0) hsame, .list hvalues .nil⟩

theorem printable_all (values : List SExpr) (line : ℕ) (h : PrintableAll values) :
    ∃ located text, plainAll located = plainAll values ∧ Delimited text ∧ PrintsAll line located text :=
  match values with
  | [] => ⟨[], [], rfl, nofun, .nil⟩
  | value :: values =>
    have hspace : Gap [' '] := .space rfl .nil
    have ⟨first, text, hfirst, hvalue⟩ := printable_prints value (line + newlines [' ']) h.1
    have ⟨others, rest, hothers, hdelimited, hvalues⟩ :=
      printable_all values (line + newlines [' '] + newlines text) h.2
    ⟨first :: others, [' '] ++ (text ++ rest), congrArg₂ List.cons hfirst hothers,
      fun _ hch => Option.some.inj hch ▸ rfl, .cons hspace hvalue (fun _ => hdelimited) hvalues⟩

end

/-- The reader accepts the sources of the expressions within the limits, each as its expression,
and nothing else; every expression of printable symbols has a source. -/
theorem reads_its_grammar :
    (∀ source tree, SpecReader.read source = .ok tree ↔
      (utf8 source).length ≤ maxSourceBytes ∧ depth tree ≤ maxNestingDepth ∧
      size tree ≤ maxExpressions ∧ Sources tree source) ∧
    (∀ tree, Printable tree → ∃ located source, plain located = plain tree ∧ Sources located source) ∧
    ∀ levels text line n more, items (exprAtDepth levels) ((utf8 text).length + 1 + more) ⟨utf8 text, line, n⟩ =
      items (exprAtDepth levels) ((utf8 text).length + 1) ⟨utf8 text, line, n⟩ := by
  refine ⟨fun source tree => ⟨?_, ?_⟩, ?_, fun levels text line n more =>
    items_enough (Nat.lt_succ_self _) more⟩
  · intro h
    unfold SpecReader.read at h
    by_cases hlong : (utf8 source).length > maxSourceBytes
    · rw [if_pos hlong] at h
      cases h
    rw [if_neg hlong] at h
    cases hroot : expr (.new source) with
    | error e =>
      rw [hroot] at h
      cases h
    | ok result =>
      obtain ⟨root, after⟩ := result
      rw [hroot] at h
      obtain ⟨lead, text, rest, rfl, hlead, hprints, -, hdepth, hsize, rfl⟩ := expr_prints _ hroot
      obtain ⟨gap, last, rfl, hskip, -, htail, -⟩ :=
        skip_splits rest (1 + newlines lead + newlines text)
      dsimp only [bind, Except.bind, skipSpaceAndComments] at h
      rw [hskip] at h
      dsimp only at h
      cases last with
      | nil =>
        cases h
        rw [List.append_nil] at hlong ⊢
        exact ⟨Nat.le_of_not_lt hlong, Nat.le_of_lt_succ hdepth, by omega, lead, text, gap, rfl, hlead,
          hprints, htail⟩
      | cons ch last =>
        obtain ⟨byte, more, henc, -⟩ := encode_cases ch
        rw [utf8_cons, henc, List.cons_append, if_pos (List.cons_ne_nil _ _)] at h
        cases h
  · rintro ⟨hlong, hdepth, hsize, lead, text, tail, rfl, hlead, hprints, htail⟩
    have hroot := expr_of_prints (maxNestingDepth + 1) (n := 0) hprints (Nat.lt_succ_of_le hdepth)
      (by omega) (fun _ => tail_delimited htail) hlead rfl
    have hend := @skip_tail _ (1 + newlines lead + newlines text) htail
    unfold SpecReader.read
    rw [if_neg (Nat.not_lt_of_le hlong), expr, Parser.new, hroot]
    dsimp only [bind, Except.bind, skipSpaceAndComments]
    rw [hend, if_neg (not_not_intro rfl)]
    rfl
  · intro tree h
    obtain ⟨located, text, hplain, hprints⟩ := printable_prints tree 1 h
    exact ⟨located, text, hplain, [], text, [], (List.append_nil _).symm, .nil, hprints, .gap .nil⟩

end Sources

end SpecGrammar
