import RocGui.SpecGrammar
import RocGui.Locators
import RocGui.Methods

/-! Whether the locator a failure message prints is the one that was parsed. -/
namespace LocatorPrints

open TextFormats SpecReader SpecCharacters SpecGrammar Locators
open Methods (except_bind_ok)

variable {κ : Type} {plain : Char → Bool} {keys : Keyboard κ}

section Trees

/-- The expression that a locator is printed as, on one line. -/
def tree (line : ℕ) : Locator → SExpr
  | .within ancestor target =>
    .list [.atom withinWord line, tree line ancestor, tree line target] line
  | .named form value => .list (form.symbols.map (.atom · line) ++ [.string value line]) line

/-- Every chord is spelled the way it is read. -/
def Spelt (plain : Char → Bool) (keys : Keyboard κ) : Locator → Prop
  | .within ancestor target => Spelt plain keys ancestor ∧ Spelt plain keys target
  | .named form value => form.named plain keys value = .ok value

/-- The toolkit reads its own spelling of a keystroke it has read, as one word and with the same
spelling again, and takes it for a key of the host's root no sooner. -/
def Respelled (keys : Keyboard κ) : Prop := ∀ written keystroke, OneWord written →
  keys.parse written = .ok keystroke → OneWord (keys.unparse keystroke) ∧
    ∃ again, keys.parse (keys.unparse keystroke) = .ok again ∧
      keys.unparse again = keys.unparse keystroke ∧
      (keys.rootTakes again = true → keys.rootTakes keystroke = true)

variable {form : Form} {value written : Text} {node : SExpr} {locator : Locator} {line : ℕ}

theorem plain_or_role (form : Form) :
    form ∈ plainForms ∧ form ∉ roleForms ∨ form ∉ plainForms ∧ form ∈ roleForms := by
  cases form <;> decide

theorem plain_found (h : form ∈ plainForms) :
    plainForms.find? (fun other => other.word = form.word) = some form := by
  revert h
  cases form <;> decide

theorem role_found (h : form ∈ roleForms) :
    roleForms.find? (fun other => some form.word = some other.word) = some form := by
  revert h
  cases form <;> decide

theorem word_not_within (form : Form) : form.word ≠ withinWord := by
  cases form <;> decide

theorem displayed_again (respelled : Respelled keys)
    (h : displayedChord plain keys written = .ok value) :
    displayedChord plain keys value = .ok value := by
  rw [displayedChord] at h
  split at h
  · cases h
  · rename_i hword
    obtain ⟨keystroke, hparse, hvalue⟩ := except_bind_ok.mp h
    obtain rfl := Except.ok.inj hvalue
    obtain ⟨hone, again, hagain, hsame, -⟩ := respelled _ _ (not_not.mp hword) hparse
    rw [displayedChord, if_neg (not_not_intro hone), hagain]
    exact congrArg _ hsame

theorem canonical_again (respelled : Respelled keys)
    (h : canonicalChord plain keys written = .ok value) :
    canonicalChord plain keys value = .ok value := by
  rw [canonicalChord] at h
  split at h
  · cases h
  · rename_i hword
    obtain ⟨keystroke, hparse, h⟩ := except_bind_ok.mp h
    dsimp only at h
    split at h
    · cases h
    · rename_i htakes
      obtain rfl := Except.ok.inj h
      obtain ⟨hone, again, hagain, hsame, hroot⟩ := respelled _ _ (not_not.mp hword) hparse
      rw [canonicalChord, if_neg (not_not_intro hone), hagain]
      dsimp only [bind, Except.bind]
      rw [if_neg fun htaken => htakes (hroot htaken), hsame]
      rfl

theorem named_again (respelled : Respelled keys) (h : form.named plain keys written = .ok value) :
    form.named plain keys value = .ok value := by
  cases form with
  | shortcut =>
    rw [Form.named] at h ⊢
    cases hw : canonicalChord plain keys written with
    | error detail =>
      rw [hw] at h
      cases h
    | ok again =>
      rw [hw] at h
      obtain rfl := Except.ok.inj h
      rw [canonical_again respelled hw]
      rfl
  | chord =>
    rw [Form.named] at h ⊢
    cases hw : displayedChord plain keys written with
    | error detail =>
      rw [hw] at h
      cases h
    | ok again =>
      rw [hw] at h
      obtain rfl := Except.ok.inj h
      rw [displayed_again respelled hw]
      rfl
  | _ => rfl

end Trees

section Parsing

variable {form : Form} {value word : Text} {node : SExpr} {rest : List SExpr} {locator : Locator}
  {line : ℕ}

theorem atom_of (h : atomOf node = some word) : ∃ line, node = .atom word line := by
  cases node with
  | atom value line =>
    obtain rfl := Option.some.inj h
    exact ⟨line, rfl⟩
  | _ => cases h

theorem string_of (h : stringOf node = some word) : ∃ line, node = .string word line := by
  cases node with
  | string value line =>
    obtain rfl := Option.some.inj h
    exact ⟨line, rfl⟩
  | _ => cases h

theorem symbols_plain (h : form ∈ plainForms) : form.symbols = [form.word] := if_pos h

theorem symbols_role (h : form ∈ roleForms) : form.symbols = [roleWord, form.word, nameWord] := by
  rcases plain_or_role form with ⟨-, hnot⟩ | ⟨hnot, -⟩
  · exact absurd h hnot
  · exact if_neg hnot

theorem formOf_leaves (h : formOf word rest = some (form, node)) : ∃ leaves : List SExpr,
    rest = leaves ++ [node] ∧ leaves.length + 1 = form.symbols.length ∧
      ∀ leaf ∈ leaves, isAtom leaf = true := by
  rw [formOf.eq_def] at h
  match rest, h with
  | [value], h =>
    obtain ⟨found, hfound, heq⟩ := Option.map_eq_some_iff.mp h
    obtain ⟨rfl, rfl⟩ := Prod.mk.inj heq
    rw [symbols_plain (List.mem_of_find?_eq_some hfound)]
    exact ⟨[], rfl, rfl, nofun⟩
  | [role, name, value], h =>
    dsimp only at h
    split at h
    · rename_i hboth
      obtain ⟨found, hfound, heq⟩ := Option.map_eq_some_iff.mp h
      obtain ⟨rfl, rfl⟩ := Prod.mk.inj heq
      have hrole := List.find?_some hfound
      obtain ⟨i, rfl⟩ := atom_of (of_decide_eq_true hrole)
      obtain ⟨j, rfl⟩ := atom_of hboth.2
      rw [symbols_role (List.mem_of_find?_eq_some hfound)]
      exact ⟨[_, _], rfl, rfl, by simp [isAtom]⟩
    · cases h

theorem formOf_again (form : Form) (node : SExpr) (line : ℕ) : ∃ word rest,
    form.symbols.map (SExpr.atom · line) ++ [node] = .atom word line :: rest ∧
      formOf word rest = some (form, node) ∧ word ≠ withinWord ∧ rest.length ≠ 2 := by
  rcases plain_or_role form with ⟨hplain, -⟩ | ⟨-, hrole⟩
  · refine ⟨form.word, [node], by rw [symbols_plain hplain]; rfl, ?_, word_not_within form,
      by simp⟩
    rw [formOf, plain_found hplain]
    rfl
  · refine ⟨roleWord, [.atom form.word line, .atom nameWord line, node],
      by rw [symbols_role hrole]; rfl, ?_, by decide, by simp⟩
    rw [formOf, if_pos ⟨rfl, rfl⟩]
    exact congrArg (Option.map (·, node)) (role_found hrole)

theorem parse_named_again (h : form.named plain keys value = .ok value) :
    parseLocator plain keys (tree line (.named form value)) = .ok (.named form value) := by
  obtain ⟨word, rest, hvalues, hform, hword, htwo⟩ := formOf_again form (.string value line) line
  have hnamed (node : SExpr) : parseNamed plain keys node word rest = .ok (.named form value) := by
    rw [parseNamed, hform]
    simp only [stringOf, h]
  rw [tree, hvalues, parseLocator.eq_def]
  match rest, htwo with
  | [], _ => simpa [atomOf, hword] using hnamed _
  | [_], _ => simpa [atomOf, hword] using hnamed _
  | _ :: _ :: _ :: _, _ => simpa [atomOf, hword] using hnamed _

theorem parse_tree (spelt : Spelt plain keys locator) :
    parseLocator plain keys (tree line locator) = .ok locator := by
  induction locator with
  | within ancestor target ha ht =>
    rw [tree, parseLocator, atomOf, if_pos rfl, ha spelt.1, ht spelt.2]
    rfl
  | named form value => exact parse_named_again spelt

theorem parseNamed_ok (h : parseNamed plain keys node word rest = .ok locator) :
    ∃ form leaves written line value, rest = leaves ++ [.string written line] ∧
      leaves.length + 1 = form.symbols.length ∧ (∀ leaf ∈ leaves, isAtom leaf = true) ∧
      form.named plain keys written = .ok value ∧ locator = .named form value := by
  rw [parseNamed] at h
  cases hform : formOf word rest with
  | none =>
    rw [hform] at h
    dsimp only at h
    split at h <;> cases h
  | some found =>
    obtain ⟨form, last⟩ := found
    obtain ⟨leaves, rfl, hlength, hleaves⟩ := formOf_leaves hform
    rw [hform] at h
    dsimp only at h
    cases hstring : stringOf last with
    | none =>
      rw [hstring] at h
      cases h
    | some written =>
      obtain ⟨line, rfl⟩ := string_of hstring
      rw [hstring] at h
      dsimp only at h
      cases hnamed : form.named plain keys written with
      | error detail =>
        rw [hnamed] at h
        cases h
      | ok value =>
        rw [hnamed] at h
        exact ⟨form, leaves, written, line, value, rfl, hlength, hleaves, hnamed,
          (Except.ok.inj h).symm⟩

def FromName (plain : Char → Bool) (keys : Keyboard κ) (node : SExpr) (locator : Locator) : Prop :=
  ∃ form word i leaves written j line value,
    node = .list (.atom word i :: (leaves ++ [.string written j])) line ∧
    leaves.length + 1 = form.symbols.length ∧ (∀ leaf ∈ leaves, isAtom leaf = true) ∧
    form.named plain keys written = .ok value ∧ locator = .named form value

theorem from_name {first : SExpr} (hfirst : atomOf first = some word)
    (h : parseNamed plain keys (.list (first :: rest) line) word rest = .ok locator) :
    FromName plain keys (.list (first :: rest) line) locator := by
  obtain ⟨i, rfl⟩ := atom_of hfirst
  obtain ⟨form, leaves, written, j, value, rfl, hlength, hleaves, hnamed, rfl⟩ := parseNamed_ok h
  exact ⟨form, word, i, leaves, written, j, line, value, rfl, hlength, hleaves, hnamed, rfl⟩

theorem parse_cases (h : parseLocator plain keys node = .ok locator) :
    (∃ i ancestor target line a t, node = .list [.atom withinWord i, ancestor, target] line ∧
      parseLocator plain keys ancestor = .ok a ∧ parseLocator plain keys target = .ok t ∧
      locator = .within a t) ∨ FromName plain keys node locator := by
  rw [parseLocator.eq_def] at h
  match node, h with
  | .list [first, ancestor, target] line, h =>
    dsimp only at h
    split at h
    · rename_i hfirst
      obtain ⟨i, rfl⟩ := atom_of hfirst
      obtain ⟨a, ha, h⟩ := except_bind_ok.mp h
      obtain ⟨t, ht, h⟩ := except_bind_ok.mp h
      exact .inl ⟨i, ancestor, target, line, a, t, rfl, ha, ht, (Except.ok.inj h).symm⟩
    · split at h
      · cases h
      · rename_i word hfirst
        exact .inr (from_name hfirst h)
  | .list [] line, h => cases h
  | .list [first] line, h =>
    dsimp only at h
    split at h
    · cases h
    · rename_i word hfirst
      split at h
      · cases h
      · exact .inr (from_name hfirst h)
  | .list [first, second] line, h =>
    dsimp only at h
    split at h
    · cases h
    · rename_i word hfirst
      split at h
      · cases h
      · exact .inr (from_name hfirst h)
  | .list (first :: second :: third :: fourth :: more) line, h =>
    dsimp only at h
    split at h
    · cases h
    · rename_i word hfirst
      split at h
      · cases h
      · exact .inr (from_name hfirst h)

end Parsing

section Measures

variable {form : Form} {value : Text} {node root : SExpr} {values : List SExpr} {locator : Locator}
  {line : ℕ}

theorem leaves_measured (h : ∀ leaf ∈ values, depth leaf = 0 ∧ size leaf = 1) (hne : values ≠ []) :
    depthAll values = 1 ∧ sizeAll values = values.length := by
  induction values with
  | nil => exact absurd rfl hne
  | cons first rest ih =>
    obtain ⟨hdepth, hsize⟩ := h first List.mem_cons_self
    rw [depthAll, sizeAll, hdepth, hsize, List.length_cons]
    by_cases hrest : rest = []
    · subst hrest
      exact ⟨rfl, rfl⟩
    · obtain ⟨hd, hs⟩ := ih (fun leaf hl => h leaf (List.mem_cons_of_mem _ hl)) hrest
      rw [hd, hs]
      exact ⟨rfl, Nat.add_comm _ _⟩

theorem atom_measured (h : isAtom node = true) : depth node = 0 ∧ size node = 1 := by
  cases node with
  | atom value line => exact ⟨rfl, rfl⟩
  | _ => cases h

theorem tree_within (line : ℕ) (ancestor target : Locator) :
    depth (tree line (.within ancestor target)) = max 1
        (max (depth (tree line ancestor) + 1) (max (depth (tree line target) + 1) 0)) ∧
      size (tree line (.within ancestor target)) =
        1 + (size (tree line ancestor) + (size (tree line target) + 0)) + 1 := ⟨rfl, rfl⟩

theorem tree_named (line : ℕ) (form : Form) (value : Text) :
    depth (tree line (.named form value)) = 1 ∧
      size (tree line (.named form value)) = form.symbols.length + 1 + 1 := by
  have measured (leaf : SExpr)
      (hl : leaf ∈ form.symbols.map (SExpr.atom · line) ++ [.string value line]) :
      depth leaf = 0 ∧ size leaf = 1 := by
    rcases List.mem_append.mp hl with hl | hl
    · obtain ⟨symbol, -, rfl⟩ := List.mem_map.mp hl
      exact ⟨rfl, rfl⟩
    · rw [List.mem_singleton.mp hl]
      exact ⟨rfl, rfl⟩
  obtain ⟨hdepth, hsize⟩ := leaves_measured measured (by simp)
  rw [tree, depth, size, hdepth, hsize, List.length_append, List.length_map]
  exact ⟨rfl, rfl⟩

/-- A locator is parsed from an expression of the measures of the one it is printed as. -/
theorem parse_measured (respelled : Respelled keys)
    (h : parseLocator plain keys node = .ok locator) :
    depth node = depth (tree line locator) ∧ size node = size (tree line locator) ∧
      Spelt plain keys locator := by
  induction locator generalizing node with
  | within ancestor target ha ht =>
    obtain ⟨i, first, second, k, a, t, rfl, hfirst, hsecond, heq⟩ |
      ⟨form, word, i, leaves, written, j, k, value, -, -, -, -, heq⟩ := parse_cases h
    · obtain ⟨rfl, rfl⟩ := Locator.within.inj heq
      obtain ⟨da, sa, ca⟩ := ha hfirst
      obtain ⟨dt, st, ct⟩ := ht hsecond
      simp only [tree, depth, size, depthAll, sizeAll, da, sa, dt, st, true_and]
      exact ⟨ca, ct⟩
    · cases heq
  | named form value =>
    obtain ⟨i, first, second, k, a, t, -, -, -, heq⟩ |
      ⟨found, word, i, leaves, written, j, k, name, rfl, hlength, hleaves, hnamed, heq⟩ := parse_cases h
    · cases heq
    · obtain ⟨rfl, rfl⟩ := Locator.named.inj heq
      have measured (leaf : SExpr) (hl : leaf ∈ .atom word i :: (leaves ++ [.string written j])) :
          depth leaf = 0 ∧ size leaf = 1 := by
        rcases List.mem_cons.mp hl with rfl | hl
        · exact ⟨rfl, rfl⟩
        rcases List.mem_append.mp hl with hl | hl
        · exact atom_measured (hleaves leaf hl)
        · rw [List.mem_singleton.mp hl]
          exact ⟨rfl, rfl⟩
      obtain ⟨dn, sn⟩ := leaves_measured measured (List.cons_ne_nil _ _)
      rw [(tree_named line form value).1, (tree_named line form value).2, depth, size, dn, sn]
      refine ⟨rfl, ?_, named_again respelled hnamed⟩
      simp only [List.length_cons, List.length_append, List.length_nil]
      omega

inductive Inside : SExpr → SExpr → Prop where
  | here (inner : SExpr) : Inside inner inner
  | item {inner value : SExpr} {values : List SExpr} {line : ℕ} : value ∈ values → Inside inner value →
    Inside inner (.list values line)

theorem item_measured (h : node ∈ values) : depth node + 1 ≤ depthAll values ∧
    size node ≤ sizeAll values := by
  induction values with
  | nil => cases h
  | cons first rest ih =>
    rw [depthAll, sizeAll]
    rcases List.mem_cons.mp h with rfl | h
    · omega
    · obtain ⟨hd, hs⟩ := ih h
      omega

theorem inside_measured (h : Inside node root) : depth node ≤ depth root ∧ size node ≤ size root := by
  induction h with
  | here => exact ⟨Nat.le_refl _, Nat.le_refl _⟩
  | item hvalue _ ih =>
    obtain ⟨hd, hs⟩ := item_measured hvalue
    rw [depth, size]
    omega

/-- The locator of some expression of a specification. -/
def Produced (plain : Char → Bool) (keys : Keyboard κ) (locator : Locator) : Prop :=
  ∃ source root node, SpecReader.read source = .ok root ∧ Inside node root ∧
    parseLocator plain keys node = .ok locator

theorem produced_measured (respelled : Respelled keys) (h : Produced plain keys locator) :
    depth (tree line locator) ≤ maxNestingDepth ∧ size (tree line locator) ≤ maxExpressions ∧
      Spelt plain keys locator := by
  obtain ⟨source, root, node, hread, hinside, hparse⟩ := h
  obtain ⟨-, hdepth, hsize, -⟩ := (reads_its_grammar.1 source root).mp hread
  obtain ⟨hd, hs⟩ := inside_measured hinside
  obtain ⟨dn, sn, spelt⟩ := @parse_measured _ _ _ _ _ line respelled hparse
  exact ⟨by omega, by omega, spelt⟩

end Measures

section Prints

variable {form : Form} {value rest : Text} {locator : Locator} {line n levels : ℕ} {ch : Char}

/-- The reader reads what `Debug` prints of the character. -/
def Readable (plain : Char → Bool) (ch : Char) : Prop :=
  ch ≠ '\x00' ∧ (ch ∈ ['\t', '\r', '\n', '\\', '"'] ∨ plain ch = true)

instance : Decidable (Readable plain ch) := inferInstanceAs (Decidable (_ ∧ _))

def Legible (plain : Char → Bool) (locator : Locator) : Prop :=
  ∀ name ∈ locator.names, ∀ ch ∈ name, Readable plain ch

theorem readable_cases (h : Readable plain ch) :
    debugChar plain ch = [ch] ∧ ch ≠ '"' ∧ ch ≠ '\\' ∧ ch ≠ '\n' ∨
      ∃ code, debugChar plain ch = ['\\', code] ∧ unescapeChar code = some ch ∧ code ≠ '\n' := by
  obtain ⟨hnull, hch⟩ := h
  by_cases hescaped : ch ∈ ['\t', '\r', '\n', '\\', '"']
  · refine .inr ?_
    simp only [List.mem_cons, List.not_mem_nil, or_false] at hescaped
    rcases hescaped with rfl | rfl | rfl | rfl | rfl <;> exact ⟨_, rfl, rfl, by decide⟩
  · have hplain := hch.resolve_left hescaped
    simp only [List.mem_cons, List.not_mem_nil, or_false, not_or] at hescaped
    obtain ⟨ht, hr, hn, hback, hquote⟩ := hescaped
    refine .inl ⟨?_, hquote, hback, hn⟩
    simp [debugChar, hnull, ht, hr, hn, hback, hquote, hplain]

/-- Any other is printed as an escape that the reader does not know. -/
theorem unreadable_cases (h : ¬Readable plain ch) : ∃ code more,
    debugChar plain ch = '\\' :: code :: more ∧ unescapeChar code = none := by
  by_cases hnull : ch = '\x00'
  · exact ⟨'0', [], by simp [debugChar, hnull], by decide⟩
  · have hother : ¬(ch ∈ ['\t', '\r', '\n', '\\', '"'] ∨ plain ch = true) := fun hch => h ⟨hnull, hch⟩
    simp only [List.mem_cons, List.not_mem_nil, or_false, not_or] at hother
    obtain ⟨⟨ht, hr, hn, hback, hquote⟩, hplain⟩ := hother
    refine ⟨'u', '\x7b' :: (hexadecimal ch.toNat ++ ['\x7d']), ?_, by decide⟩
    simp [debugChar, hnull, ht, hr, hn, hback, hquote, hplain]

theorem debug_pieces (h : ∀ ch ∈ value, Readable plain ch) :
    Pieces (value.flatMap (debugChar plain)) value ∧
      newlines (value.flatMap (debugChar plain)) = 0 := by
  induction value with
  | nil => exact ⟨.nil, rfl⟩
  | cons ch rest ih =>
    obtain ⟨pieces, hlines⟩ := ih fun ch hch => h ch (List.mem_cons_of_mem _ hch)
    rw [List.flatMap_cons, newlines_append, hlines]
    rcases readable_cases (h ch List.mem_cons_self) with ⟨hprint, hquote, hback, hn⟩ |
      ⟨code, hprint, hcode, hn⟩
    · rw [hprint]
      exact ⟨.raw hquote hback pieces, by rw [newlines_cons, if_neg hn]; rfl⟩
    · rw [hprint]
      exact ⟨.escape hcode pieces, by
        rw [newlines_cons, newlines_cons, if_neg hn, if_neg (by decide)]; rfl⟩

theorem debug_unread (h : ¬∀ ch ∈ value, Readable plain ch) (acc rest : Text) (line : ℕ) :
    ∃ e, readString acc (utf8 (value.flatMap (debugChar plain) ++ rest)) line = .error e := by
  induction value generalizing acc line with
  | nil => exact absurd nofun h
  | cons ch more ih =>
    rw [List.flatMap_cons, List.append_assoc]
    by_cases hch : Readable plain ch
    · have hmore : ¬∀ ch ∈ more, Readable plain ch :=
        fun hall => h fun other hother => (List.mem_cons.mp hother).elim (· ▸ hch) (hall other)
      rcases readable_cases hch with ⟨hprint, hquote, hback, -⟩ | ⟨code, hprint, hcode, -⟩
      · rw [hprint, List.singleton_append, readString_raw hquote hback]
        exact ih hmore _ _
      · rw [hprint, List.cons_append, List.singleton_append, readString_escape hcode]
        exact ih hmore _ _
    · obtain ⟨code, last, hprint, hcode⟩ := unreadable_cases hch
      rw [hprint, List.cons_append, List.cons_append]
      exact readString_other hcode

theorem string_prints_lines {body : Text} (pieces : Pieces body value) (hlines : newlines body = 0) :
    Prints line (.string value line) ('"' :: (body ++ ['"'])) ∧ newlines ('"' :: (body ++ ['"'])) = 0 := by
  refine ⟨.string pieces, ?_⟩
  rw [newlines_cons, newlines_append, hlines, if_neg (by decide)]
  rfl

theorem symbols_solid (form : Form) : ∀ symbol ∈ form.symbols, symbol ≠ [] ∧
    symbol.head? ≠ some '"' ∧ ∀ ch ∈ symbol, isDelimiter ch = false := by
  have checked : ∀ symbol ∈ form.symbols, symbol ≠ [] ∧ symbol.head? ≠ some '"' ∧
      (symbol.all fun ch => !isDelimiter ch) = true := by
    cases form <;> decide
  intro symbol hsymbol
  obtain ⟨hne, hhead, hall⟩ := checked symbol hsymbol
  refine ⟨hne, hhead, fun ch hch => ?_⟩
  simpa using List.all_eq_true.mp hall ch hch

theorem within_solid : withinWord ≠ [] ∧ withinWord.head? ≠ some '"' ∧
    ∀ ch ∈ withinWord, isDelimiter ch = false := by
  have hall : (withinWord.all fun ch => !isDelimiter ch) = true := by decide
  refine ⟨by decide, by decide, fun ch hch => ?_⟩
  simpa using List.all_eq_true.mp hall ch hch

theorem space_gap : Gap [' '] := .space rfl .nil

theorem space_delimited (rest : Text) : Delimited ([' '] ++ rest) := by
  rintro _ ⟨⟩
  rfl

theorem symbols_print {symbols : List Text} {values : List SExpr} {gap : Text} (hgap : Gap gap)
    (solid : ∀ symbol ∈ symbols, symbol ≠ [] ∧ symbol.head? ≠ some '"' ∧
      ∀ ch ∈ symbol, isDelimiter ch = false)
    (hlines : newlines gap = 0) (hvalues : ∀ gap, Gap gap → newlines gap = 0 →
      PrintsAll line values (gap ++ rest)) :
    PrintsAll line (symbols.map (.atom · line) ++ values)
      (gap ++ (symbols.flatMap (· ++ [' ']) ++ rest)) := by
  induction symbols generalizing gap with
  | nil => exact hvalues gap hgap hlines
  | cons symbol others ih =>
    obtain ⟨hne, hquote, hall⟩ := solid symbol List.mem_cons_self
    have hsymbol := newlines_symbol hall
    have hothers := ih space_gap (fun other ho => solid other (List.mem_cons_of_mem _ ho)) rfl
    rw [List.map_cons, List.cons_append, List.flatMap_cons, List.append_assoc, List.append_assoc]
    have first : Prints (line + newlines gap) (.atom symbol line) symbol := by
      rw [hlines]
      exact .atom hne hquote hall
    refine .cons hgap first (fun _ => space_delimited _) ?_
    rw [hlines, hsymbol]
    exact hothers

theorem named_prints {body : Text} (form : Form) (pieces : Pieces body value)
    (hlines : newlines body = 0) (line : ℕ) :
    Prints line (tree line (.named form value)) ('(' :: (form.symbols.flatMap (· ++ [' ']) ++
        ('"' :: (body ++ ['"']) ++ [')']))) ∧
      newlines ('(' :: (form.symbols.flatMap (· ++ [' ']) ++ ('"' :: (body ++ ['"']) ++ [')']))) = 0 := by
  obtain ⟨prints, hzero⟩ := @string_prints_lines _ line _ pieces hlines
  have last (gap : Text) (hgap : Gap gap) (hnone : newlines gap = 0) :
      PrintsAll line [.string value line] (gap ++ '"' :: (body ++ ['"'])) := by
    have hstring : Prints (line + newlines gap) (.string value line) ('"' :: (body ++ ['"'])) := by
      rw [hnone]
      exact prints
    have := PrintsAll.cons hgap hstring nofun .nil
    rwa [List.append_nil] at this
  have inner := symbols_print .nil (symbols_solid form) rfl last
  have whole := Prints.list inner .nil
  simp only [List.nil_append, List.append_assoc] at whole
  rw [tree]
  refine ⟨by simpa only [List.append_assoc] using whole, ?_⟩
  have hsymbols : newlines (form.symbols.flatMap (· ++ [' '])) = 0 := by
    cases form <;> rfl
  rw [newlines_cons, newlines_append, newlines_append, hsymbols, hzero]
  decide

theorem display_prints (legible : Legible plain locator) (line : ℕ) :
    Prints line (tree line locator) (display plain locator) ∧
      newlines (display plain locator) = 0 := by
  induction locator with
  | within ancestor target ha ht =>
    obtain ⟨aprints, alines⟩ := ha fun name hname => legible name (List.mem_append_left _ hname)
    obtain ⟨tprints, tlines⟩ := ht fun name hname => legible name (List.mem_append_right _ hname)
    have hlines : newlines withinWord = 0 := rfl
    have inner : PrintsAll line [.atom withinWord line, tree line ancestor, tree line target]
        ([] ++ (withinWord ++ ([' '] ++ (display plain ancestor ++ ([' '] ++
          (display plain target ++ [])))))) := by
      refine .cons .nil (.atom within_solid.1 within_solid.2.1 within_solid.2.2)
        (fun _ => space_delimited _) ?_
      refine .cons space_gap aprints (fun _ => space_delimited _) ?_
      rw [alines]
      exact .cons space_gap tprints (fun _ _ h => by cases h) .nil
    have whole := Prints.list inner .nil
    simp only [List.nil_append, List.append_nil, List.append_assoc, List.cons_append] at whole
    rw [display]
    refine ⟨whole, ?_⟩
    simp only [newlines_cons, newlines_append, alines, tlines, hlines]
    decide
  | named form value =>
    obtain ⟨pieces, hlines⟩ := debug_pieces (legible value List.mem_cons_self)
    exact named_prints form pieces hlines line

end Prints

section Refusals

variable {form : Form} {value text rest lead more : Text} {locator : Locator}
  {line start n levels : ℕ} {ch : Char} {node : SExpr}

theorem items_refused (hgap : Gap lead) (hsolid : Solid (ch :: more)) (hclose : ch ≠ ')')
    (h : ∃ e, exprAtDepth levels ⟨utf8 (ch :: more), start + newlines lead, n⟩ = .error e) (fuel : ℕ) :
    ∃ e, items (exprAtDepth levels) fuel ⟨utf8 (lead ++ ch :: more), start, n⟩ = .error e := by
  obtain ⟨e, he⟩ := h
  cases fuel with
  | zero => exact ⟨_, rfl⟩
  | succ fuel =>
    rw [items_skips (skip_lead hgap hsolid)]
    dsimp only
    rw [if_neg hclose, he]
    exact ⟨e, rfl⟩

theorem items_refused_later (hgap : Gap lead) (hprints : Prints (start + newlines lead) node text)
    (hdepth : depth node < levels) (hsize : n + size node ≤ maxExpressions)
    (hrest : isAtom node → Delimited rest)
    (h : ∀ fuel, ∃ e, items (exprAtDepth levels) fuel
      ⟨utf8 rest, start + newlines lead + newlines text, n + size node⟩ = .error e) (fuel : ℕ) :
    ∃ e, items (exprAtDepth levels) fuel ⟨utf8 (lead ++ (text ++ rest)), start, n⟩ = .error e := by
  obtain ⟨first, tail, rfl, hspace, hsemi, hclose⟩ := prints_head hprints
  have hsolid : Solid (first :: (tail ++ rest)) := by
    rintro _ ⟨⟩
    exact ⟨hspace, hsemi⟩
  have hread := @expr_of_prints levels _ (start + newlines lead) n _ _ [] rest hprints hdepth hsize
    hrest .nil rfl
  cases fuel with
  | zero => exact ⟨_, rfl⟩
  | succ fuel =>
    obtain ⟨e, he⟩ := h fuel
    rw [List.cons_append, items_skips (skip_lead hgap hsolid)]
    dsimp only [List.nil_append, List.cons_append] at hread ⊢
    rw [if_neg hclose, hread]
    dsimp only [bind, Except.bind]
    rw [he]
    exact ⟨e, rfl⟩

theorem symbols_refused {symbols : List Text} (hgap : Gap lead) (hlines : newlines lead = 0)
    (solid : ∀ symbol ∈ symbols, symbol ≠ [] ∧ symbol.head? ≠ some '"' ∧
      ∀ ch ∈ symbol, isDelimiter ch = false) (hn : n + symbols.length ≤ maxExpressions)
    (h : ∀ lead, Gap lead → newlines lead = 0 → ∀ fuel, ∃ e, items (exprAtDepth (levels + 1)) fuel
      ⟨utf8 (lead ++ rest), line, n + symbols.length⟩ = .error e) (fuel : ℕ) :
    ∃ e, items (exprAtDepth (levels + 1)) fuel
      ⟨utf8 (lead ++ (symbols.flatMap (· ++ [' ']) ++ rest)), line, n⟩ = .error e := by
  induction symbols generalizing lead n fuel with
  | nil => exact h lead hgap hlines fuel
  | cons symbol others ih =>
    obtain ⟨hne, hquote, hall⟩ := solid symbol List.mem_cons_self
    rw [List.length_cons] at hn h
    have hcount : n + (others.length + 1) = n + 1 + others.length := by omega
    rw [hcount] at hn h
    have hone : size (.atom symbol (line + newlines lead)) = 1 := rfl
    rw [List.flatMap_cons, List.append_assoc, List.append_assoc]
    refine items_refused_later hgap (.atom hne hquote hall) (Nat.succ_pos levels)
      (by rw [hone]; omega) (fun _ => space_delimited _) (fun fuel => ?_) fuel
    rw [hlines, newlines_symbol hall]
    exact ih space_gap rfl (fun other ho => solid other (List.mem_cons_of_mem _ ho)) hn h fuel

theorem list_refused (h : ∀ fuel, ∃ e, items (exprAtDepth levels) fuel ⟨utf8 text, line, n + 1⟩ = .error e)
    (hn : n < maxExpressions) :
    ∃ e, exprAtDepth (levels + 1) ⟨utf8 ('(' :: text), line, n⟩ = .error e := by
  obtain ⟨e, he⟩ := h ((utf8 text).length + 1)
  have hsolid : Solid ('(' :: text) := by
    rintro _ ⟨⟩
    exact ⟨by decide, by decide⟩
  rw [exprAtDepth_skips hn (skip_solid hsolid)]
  dsimp only
  rw [if_pos rfl, he]
  exact ⟨e, rfl⟩

theorem string_refused (h : ¬∀ ch ∈ value, Readable plain ch) (hn : n < maxExpressions) :
    ∃ e, exprAtDepth (levels + 1) ⟨utf8 (debugText plain value ++ rest), line, n⟩ = .error e := by
  obtain ⟨e, he⟩ := debug_unread h [] ('"' :: rest) line
  rw [debugText, List.cons_append, List.append_assoc, List.singleton_append]
  generalize value.flatMap (debugChar plain) ++ '"' :: rest = printed at he
  have hsolid : Solid ('"' :: printed) := by
    rintro _ ⟨⟩
    exact ⟨by decide, by decide⟩
  rw [exprAtDepth_skips hn (skip_solid hsolid)]
  dsimp only
  rw [if_neg (by decide), if_pos rfl, string_reads, he]
  exact ⟨e, rfl⟩

theorem display_solid (locator : Locator) (rest : Text) :
    Solid (display plain locator ++ rest) ∧ ∃ more, display plain locator ++ rest = '(' :: more := by
  have opens : ∃ more, display plain locator ++ rest = '(' :: more := by
    cases locator <;> exact ⟨_, rfl⟩
  obtain ⟨more, hmore⟩ := opens
  refine ⟨?_, more, hmore⟩
  rw [hmore]
  rintro _ ⟨⟩
  exact ⟨by decide, by decide⟩

theorem display_refused (h : ¬Legible plain locator) (hdepth : depth (tree line locator) < levels)
    (hsize : n + size (tree line locator) ≤ maxExpressions) (rest : Text) :
    ∃ e, exprAtDepth levels ⟨utf8 (display plain locator ++ rest), line, n⟩ = .error e := by
  obtain ⟨levels, rfl⟩ : ∃ k, levels = k + 1 := ⟨levels - 1, by omega⟩
  induction locator generalizing levels n rest with
  | within ancestor target ha ht =>
    rw [(tree_within line ancestor target).1] at hdepth
    rw [(tree_within line ancestor target).2] at hsize
    obtain ⟨levels, rfl⟩ : ∃ k, levels = k + 1 := ⟨levels - 1, by omega⟩
    have hword : size (.atom withinWord line) = 1 := rfl
    have first : Prints (line + newlines []) (.atom withinWord line) withinWord :=
      .atom within_solid.1 within_solid.2.1 within_solid.2.2
    simp only [display, List.cons_append, List.append_assoc]
    refine list_refused (fun fuel => ?_) (by omega)
    refine @items_refused_later _ _ [] _ _ _ _ .nil first (Nat.succ_pos levels) (by omega)
      (fun _ => space_delimited _) (fun fuel => ?_) fuel
    have hline : line + newlines [] + newlines withinWord = line := rfl
    rw [hline, hword]
    by_cases hl : Legible plain ancestor
    · obtain ⟨hprints, alines⟩ := display_prints hl line
      have aprints : Prints (line + newlines [' ']) (tree line ancestor) (display plain ancestor) :=
        hprints
      have hillegible : ¬Legible plain target := fun ht =>
        h fun name hname => (List.mem_append.mp hname).elim (hl name) (ht name)
      refine @items_refused_later _ _ [' '] _ _ _ _ space_gap aprints (by omega) (by omega)
        (fun _ => space_delimited _) (fun fuel => ?_) fuel
      obtain ⟨solid, more, hmore⟩ := @display_solid plain target (')' :: rest)
      have refused := @ht (n + 1 + 1 + size (tree line ancestor)) hillegible (by omega) (')' :: rest)
        levels (by omega)
      rw [alines]
      rw [hmore] at solid refused
      have later := items_refused space_gap solid (by decide) refused fuel
      rw [← hmore] at later
      exact later
    · obtain ⟨solid, more, hmore⟩ := @display_solid plain ancestor
        (' ' :: (display plain target ++ ([')'] ++ rest)))
      have refused := @ha (n + 1 + 1) hl (by omega) (' ' :: (display plain target ++ ([')'] ++ rest)))
        levels (by omega)
      rw [hmore] at solid refused
      have later := items_refused space_gap solid (by decide) refused fuel
      rw [← hmore] at later
      exact later
  | named form value =>
    rw [(tree_named line form value).1] at hdepth
    rw [(tree_named line form value).2] at hsize
    obtain ⟨levels, rfl⟩ : ∃ k, levels = k + 1 := ⟨levels - 1, by omega⟩
    have hvalue : ¬∀ ch ∈ value, Readable plain ch := by
      intro hall
      refine h fun name hname => ?_
      rw [List.mem_singleton.mp hname]
      exact hall
    simp only [display, List.cons_append, List.append_assoc]
    refine list_refused (fun fuel => ?_) (by omega)
    refine @symbols_refused _ [] _ _ _ _ .nil rfl (symbols_solid form) (by omega)
      (fun lead hgap hlines fuel => ?_) fuel
    have hsolid : Solid (debugText plain value ++ ([')'] ++ rest)) := by
      rintro _ ⟨⟩
      exact ⟨by decide, by decide⟩
    refine items_refused hgap hsolid (by decide) ?_ fuel
    rw [hlines]
    exact string_refused hvalue (by omega)

end Refusals

section RoundTrip

variable {form : Form} {value : Text} {locator : Locator}

theorem produced_from {source : Text} (hprints : Prints 1 (tree 1 locator) source)
    (hlong : (utf8 source).length ≤ maxSourceBytes) (hdepth : depth (tree 1 locator) ≤ maxNestingDepth)
    (hsize : size (tree 1 locator) ≤ maxExpressions) (spelt : Spelt plain keys locator) :
    Produced plain keys locator := by
  refine ⟨source, tree 1 locator, tree 1 locator, ?_, .here _, parse_tree spelt⟩
  refine (reads_its_grammar.1 _ _).mpr ⟨hlong, hdepth, hsize, [], source, [], ?_, .nil, hprints, .gap .nil⟩
  exact (List.append_nil _).symm

theorem illegible_unread (respelled : Respelled keys) (produced : Produced plain keys locator)
    (h : ¬Legible plain locator) :
    ∃ e, readLocator plain keys (display plain locator) = .error e := by
  obtain ⟨hdepth, hsize, -⟩ := @produced_measured _ _ _ _ 1 respelled produced
  obtain ⟨e, he⟩ := @display_refused _ _ 1 0 _ h (Nat.lt_succ_of_le hdepth) (by omega) []
  rw [List.append_nil] at he
  rw [readLocator, expr, Parser.new, he]
  exact ⟨e, rfl⟩

/-- Reading what a locator is printed as gives the locator back when and only when every
character of its names is one whose printed form the reader knows. -/
theorem prints_as_parsed (respelled : Respelled keys) (produced : Produced plain keys locator) :
    readLocator plain keys (display plain locator) = .ok locator ↔ Legible plain locator := by
  constructor
  · intro h
    by_contra hillegible
    obtain ⟨e, he⟩ := illegible_unread respelled produced hillegible
    rw [h] at he
    cases he
  · intro legible
    obtain ⟨hdepth, hsize, spelt⟩ := @produced_measured _ _ _ _ 1 respelled produced
    obtain ⟨hprints, hlines⟩ := display_prints legible 1
    have hread := @expr_of_prints (maxNestingDepth + 1) _ 1 0 _ _ [] [] hprints
      (Nat.lt_succ_of_le hdepth) (by omega) (fun _ _ h => by cases h) .nil rfl
    rw [List.append_nil, List.nil_append] at hread
    rw [readLocator, expr, Parser.new, hread]
    exact parse_tree spelt

/-- Keystrokes as they are spelled, none of them the root's. -/
def asSpelled : Keyboard Text := ⟨.ok, fun keystroke => keystroke, fun _ => false⟩

theorem respelled_asSpelled : Respelled asSpelled :=
  fun _ _ hword hparse => by
    obtain rfl := Except.ok.inj hparse
    exact ⟨hword, _, rfl, rfl, fun h => h⟩

def asciiPlain (ch : Char) : Bool := 32 ≤ ch.toNat && ch.toNat ≤ 126

def shortcutInPanel : Locator := .within (.named .panelName "Keys".toList) (.named .shortcut ['k'])

theorem shortcut_in_panel_reads_back :
    readLocator asciiPlain asSpelled (display asciiPlain shortcutInPanel) = .ok shortcutInPanel ↔
      Legible asciiPlain shortcutInPanel := by
  have legible : Legible asciiPlain shortcutInPanel := by
    intro name hname
    simp only [shortcutInPanel, Locator.names, List.singleton_append, List.mem_cons,
      List.not_mem_nil, or_false] at hname
    rcases hname with rfl | rfl
    · change ∀ ch ∈ ['K', 'e', 'y', 's'], Readable asciiPlain ch
      simp [Readable, asciiPlain]
    · simp [Readable, asciiPlain]
  exact prints_as_parsed respelled_asSpelled (produced_from (display_prints legible 1).1
    (by decide) (by decide) (by decide) ⟨rfl, rfl⟩)

def nullText : Locator := .named .text ['\x00']

theorem null_text_unread : ¬∀ (plain : Char → Bool) (keys : Keyboard Text) (locator : Locator),
    Respelled keys → Produced plain keys locator →
      readLocator plain keys (display plain locator) = .ok locator := by
  intro claim
  have pieces : Pieces ['\x00'] ['\x00'] := .raw (by decide) (by decide) .nil
  have produced : Produced asciiPlain asSpelled nullText :=
    produced_from (named_prints .text pieces rfl 1).1 (by decide) (by decide) (by decide) rfl
  have hillegible : ¬Legible asciiPlain nullText := fun legible =>
    (legible ['\x00'] List.mem_cons_self '\x00' List.mem_cons_self).1 rfl
  obtain ⟨e, he⟩ := illegible_unread respelled_asSpelled produced hillegible
  rw [claim _ _ _ respelled_asSpelled produced] at he
  cases he

end RoundTrip

end LocatorPrints
