import RocGui.RecentEntries
import RocGui.TextFormats

/-! The store of the recent list: one line for each entry, most recent first. A path is its
bytes, and two paths are the same place when their components are. -/
namespace RecentFormats

open Grants TextFormats
open RecentEntries (EntryKind maxEntries)

abbrev Path := Bytes

def slash : UInt8 := 47
def dot : UInt8 := 46

/-- `Path::components`: whether the path starts at the root, and its parts. Empty parts and
dots are left out, but for a dot that a relative path starts with. -/
def components (path : Path) : Bool × List Bytes :=
  let rooted := path.head? = some slash
  let parts := path.splitOn slash
  (rooted, (if ¬rooted ∧ parts.head? = some [dot] then [[dot]] else []) ++
    parts.filter fun part => part ≠ [] ∧ part ≠ [dot])

/-- Paths are compared by their components. -/
def SamePath (a b : Path) : Prop := components a = components b

instance (a b : Path) : Decidable (SamePath a b) := inferInstanceAs (Decidable (_ = _))

/-- What was at the place when it was remembered. -/
structure Identity where
  device : UInt64
  inode : UInt64
  deriving DecidableEq

structure Entry where
  key : UInt64
  kind : EntryKind
  path : Path
  identity : Identity
  origin : Origin
  deriving DecidableEq

section Names

def kindName : EntryKind → Text
  | .file => "file".toList
  | .directory => "directory".toList

def kindFrom (name : Text) : Option EntryKind :=
  if name = kindName .file then some .file
  else if name = kindName .directory then some .directory
  else none

def originName : Origin → Text
  | .trustedSelection .brokered => "trusted-selection:brokered".toList
  | .trustedSelection .consentOnly => "trusted-selection:consent-only".toList
  | .dropped .brokered => "drop:brokered".toList
  | .dropped .consentOnly => "drop:consent-only".toList
  | .provisioned => "provisioned".toList
  | .automatic => "automatic".toList

def origins : List Origin :=
  [.trustedSelection .brokered, .trustedSelection .consentOnly, .dropped .brokered,
    .dropped .consentOnly, .provisioned]

def originFrom (name : Text) : Option Origin := origins.find? fun origin => originName origin = name

theorem kindFrom_kindName (kind : EntryKind) : kindFrom (kindName kind) = some kind := by
  cases kind <;> decide

theorem originFrom_originName {origin : Origin} (h : origin ≠ .automatic) :
    originFrom (originName origin) = some origin := by
  cases origin with
  | trustedSelection enforcement => cases enforcement <;> decide
  | dropped enforcement => cases enforcement <;> decide
  | provisioned => decide
  | automatic => exact absurd rfl h

theorem originFrom_ne_automatic {name : Text} {origin : Origin} (h : originFrom name = some origin) :
    origin ≠ .automatic := by
  intro heq
  have hmem := List.mem_of_find?_eq_some h
  rw [heq] at hmem
  exact absurd hmem (by decide)

end Names

section Format

def header : Text := "roc-gui recent 1".toList

def entryFields (entry : Entry) : List Text :=
  [decimal entry.key.toNat, kindName entry.kind, decimal entry.identity.device.toNat,
    decimal entry.identity.inode.toNat, originName entry.origin, hex entry.path]

def entryLine (entry : Entry) : Text := joinFields (entryFields entry)

def encode (entries : List Entry) : Text := unlines (header :: entries.map entryLine)

def parseU64 (text : Text) : Option UInt64 := (parseNumber UInt64.size text).map UInt64.ofNat

def parseEntry (line : Text) : Option Entry :=
  match fields line with
  | [key, kind, device, inode, origin, path] => do
    let key ← parseU64 key
    let kind ← kindFrom kind
    let device ← parseU64 device
    let inode ← parseU64 inode
    let origin ← originFrom origin
    let path ← unhex path
    return ⟨key, kind, path, ⟨device, inode⟩, origin⟩
  | _ => none

/-- An entry of another key and another place than those already read. -/
def admits (entries : List Entry) (entry : Entry) : Bool :=
  entries.all fun held => held.key ≠ entry.key ∧ ¬SamePath held.path entry.path

/-- A line that does not parse is left out rather than guessed at. -/
def readLine (entries : List Entry) (line : Text) : List Entry :=
  match parseEntry line with
  | some entry => if admits entries entry then entries ++ [entry] else entries
  | none => entries

def decodeLines (ls : List Text) : List Entry := (ls.foldl readLine []).take maxEntries

/-- A file of another format is an empty list. -/
def decode (text : Text) : List Entry :=
  match lines text with
  | [] => []
  | first :: rest => if first = header then decodeLines rest else []

end Format

structure Entries (entries : List Entry) : Prop where
  keys : entries.Pairwise fun a b => a.key ≠ b.key
  paths : entries.Pairwise fun a b => ¬SamePath a.path b.path
  bounded : entries.length ≤ maxEntries
  origins : ∀ entry ∈ entries, entry.origin ≠ .automatic

section Reading

variable {entries : List Entry} {entry : Entry}

theorem admits_iff : admits entries entry = true ↔
    ∀ held ∈ entries, held.key ≠ entry.key ∧ ¬SamePath held.path entry.path := by
  simp [admits]

theorem parseEntry_origin {line : Text} (h : parseEntry line = some entry) :
    entry.origin ≠ .automatic := by
  unfold parseEntry at h
  split at h
  · simp only [Option.bind_eq_bind, Option.bind_eq_some_iff] at h
    obtain ⟨_, -, _, -, _, -, _, -, origin, horigin, _, -, heq⟩ := h
    obtain rfl := Option.some.inj heq
    exact originFrom_ne_automatic horigin
  · cases h

structure Distinct (entries : List Entry) : Prop where
  keys : entries.Pairwise fun a b => a.key ≠ b.key
  paths : entries.Pairwise fun a b => ¬SamePath a.path b.path
  origins : ∀ entry ∈ entries, entry.origin ≠ .automatic

theorem distinct_readLine (h : Distinct entries) (line : Text) : Distinct (readLine entries line) := by
  unfold readLine
  split
  · rename_i entry hparse
    split
    · rename_i hadmits
      rw [admits_iff] at hadmits
      refine ⟨?_, ?_, fun e he => ?_⟩
      · exact List.pairwise_append.mpr ⟨h.keys, List.pairwise_singleton _ _,
          fun a ha b hb => List.mem_singleton.mp hb ▸ (hadmits a ha).1⟩
      · exact List.pairwise_append.mpr ⟨h.paths, List.pairwise_singleton _ _,
          fun a ha b hb => List.mem_singleton.mp hb ▸ (hadmits a ha).2⟩
      · rcases List.mem_append.mp he with he | he
        · exact h.origins e he
        · exact List.mem_singleton.mp he ▸ parseEntry_origin hparse
    · exact h
  · exact h

theorem distinct_foldl {ls : List Text} (h : Distinct entries) :
    Distinct (ls.foldl readLine entries) := by
  induction ls generalizing entries with
  | nil => exact h
  | cons line rest ih => exact ih (distinct_readLine h line)

/-- Whatever a store holds, what is read from it is a list. -/
theorem entries_decode (text : Text) : Entries (decode text) := by
  have empty : Entries [] := ⟨.nil, .nil, Nat.zero_le _, fun _ h => by cases h⟩
  unfold decode
  split
  · exact empty
  · split
    · rename_i rest _ _
      have distinct : Distinct (rest.foldl readLine []) :=
        distinct_foldl ⟨.nil, .nil, fun _ h => by cases h⟩
      refine ⟨distinct.keys.sublist (List.take_sublist _ _), distinct.paths.sublist
        (List.take_sublist _ _), List.length_take_le _ _, fun e he => ?_⟩
      exact distinct.origins e (List.mem_of_mem_take he)
    · exact empty

end Reading

section RoundTrip

variable {entry : Entry} {entries : List Entry}

theorem parseU64_decimal (n : UInt64) : parseU64 (decimal n.toNat) = some n := by
  rw [parseU64, parseNumber_decimal n.toNat_lt, Option.map_some, UInt64.ofNat_toNat]

theorem plain_of_mem_entryFields {field : Text} (h : field ∈ entryFields entry) :
    '\t' ∉ field ∧ '\n' ∉ field ∧ '\r' ∉ field := by
  have number (n : ℕ) : '\t' ∉ decimal n ∧ '\n' ∉ decimal n ∧ '\r' ∉ decimal n := by
    refine ⟨?_, ?_, ?_⟩ <;> intro hmem <;> exact absurd (isDigit_of_mem_decimal hmem) (by decide)
  have bytes (path : Path) : '\t' ∉ hex path ∧ '\n' ∉ hex path ∧ '\r' ∉ hex path := by
    refine ⟨?_, ?_, ?_⟩ <;> intro hmem <;> exact absurd (isAlphanum_of_mem_hex hmem) (by decide)
  simp only [entryFields, List.mem_cons, List.not_mem_nil, or_false] at h
  rcases h with rfl | rfl | rfl | rfl | rfl | rfl
  · exact number _
  · cases entry.kind <;> decide
  · exact number _
  · exact number _
  · cases entry.origin with
    | trustedSelection enforcement => cases enforcement <;> decide
    | dropped enforcement => cases enforcement <;> decide
    | provisioned => decide
    | automatic => decide
  · exact bytes _

theorem parseEntry_entryLine (h : entry.origin ≠ .automatic) :
    parseEntry (entryLine entry) = some entry := by
  have hfields : fields (entryLine entry) = entryFields entry :=
    fields_joinFields (fun field hfield => (plain_of_mem_entryFields hfield).1) (List.cons_ne_nil _ _)
  unfold parseEntry
  rw [hfields]
  simp [entryFields, parseU64_decimal, kindFrom_kindName, originFrom_originName h, unhex_hex]

theorem mem_readLine {read : List Entry} {e : Entry} (h : e ∈ readLine read (entryLine entry)) :
    e ∈ read ∨ e = entry := by
  unfold readLine at h
  by_cases horigin : entry.origin = .automatic
  · have hnone : parseEntry (entryLine entry) = none := by
      have hfields : fields (entryLine entry) = entryFields entry :=
        fields_joinFields (fun field hfield => (plain_of_mem_entryFields hfield).1)
          (List.cons_ne_nil _ _)
      have hname : originFrom (originName .automatic) = none := by decide
      unfold parseEntry
      rw [hfields]
      simp [entryFields, parseU64_decimal, kindFrom_kindName, horigin, hname]
    rw [hnone] at h
    exact .inl h
  · rw [parseEntry_entryLine horigin] at h
    dsimp only at h
    by_cases hadmits : admits read entry = true
    · rw [if_pos hadmits] at h
      exact (List.mem_append.mp h).imp_right List.mem_singleton.mp
    · rw [if_neg hadmits] at h
      exact .inl h

theorem plain_entryLine : '\n' ∉ entryLine entry ∧ '\r' ∉ entryLine entry := by
  constructor
  · intro h
    rcases mem_joinFields h with heq | ⟨field, hfield, hch⟩
    · exact absurd heq (by decide)
    · exact (plain_of_mem_entryFields hfield).2.1 hch
  · intro h
    rcases mem_joinFields h with heq | ⟨field, hfield, hch⟩
    · exact absurd heq (by decide)
    · exact (plain_of_mem_entryFields hfield).2.2 hch

theorem chomp_entryLine : chomp (entryLine entry) = entryLine entry :=
  chomp_of_getLast? fun h => plain_entryLine.2 (List.mem_of_getLast? h)

theorem lines_document {body : List Text} (h : ∀ line ∈ body, '\n' ∉ line) :
    lines (unlines (header :: body)) = header :: body.map chomp := by
  have hheader : '\n' ∉ header ∧ chomp header = header := by decide
  rw [lines_unlines, List.map_cons, hheader.2]
  intro line hline
  rcases List.mem_cons.mp hline with rfl | hline
  · exact hheader.1
  · exact h line hline

theorem decode_document {body : List Text} (h : ∀ line ∈ body, '\n' ∉ line) :
    decode (unlines (header :: body)) = decodeLines (body.map chomp) := by
  rw [decode, lines_document h]
  exact if_pos rfl

def wellFormed (line : Text) : Bool := (parseEntry (chomp line)).isSome

theorem foldl_wellFormed (body : List Text) :
    (body.map chomp).foldl readLine entries =
      ((body.filter wellFormed).map chomp).foldl readLine entries := by
  induction body generalizing entries with
  | nil => rfl
  | cons line rest ih =>
    by_cases hform : wellFormed line
    · rw [List.filter_cons_of_pos hform, List.map_cons, List.map_cons, List.foldl_cons,
        List.foldl_cons, ih]
    · have hnone : parseEntry (chomp line) = none := by simpa [wellFormed] using hform
      have hskip : readLine entries (chomp line) = entries := by rw [readLine, hnone]
      rw [List.filter_cons_of_neg hform, List.map_cons, List.foldl_cons, hskip, ih]

/-- Lines that do not parse change nothing. -/
theorem decode_wellFormed {a b : List Text} (ha : ∀ line ∈ a, '\n' ∉ line)
    (hb : ∀ line ∈ b, '\n' ∉ line) (same : a.filter wellFormed = b.filter wellFormed) :
    decode (unlines (header :: a)) = decode (unlines (header :: b)) := by
  rw [decode_document ha, decode_document hb, decodeLines, decodeLines, foldl_wellFormed a,
    foldl_wellFormed b, same]

theorem readLine_entryLine (h : Distinct (entries ++ [entry])) :
    readLine entries (entryLine entry) = entries ++ [entry] := by
  have horigin := h.origins entry (List.mem_append_right _ (List.mem_singleton_self entry))
  have hadmits : admits entries entry = true := by
    rw [admits_iff]
    intro held hheld
    exact ⟨(List.pairwise_append.mp h.keys).2.2 held hheld entry (List.mem_singleton_self _),
      (List.pairwise_append.mp h.paths).2.2 held hheld entry (List.mem_singleton_self _)⟩
  rw [readLine, parseEntry_entryLine horigin]
  exact if_pos hadmits

theorem foldl_entryLine {read : List Entry} (h : Distinct (read ++ entries)) :
    (entries.map entryLine).foldl readLine read = read ++ entries := by
  induction entries generalizing read with
  | nil => simp
  | cons entry rest ih =>
    have hsplit : read ++ entry :: rest = (read ++ [entry]) ++ rest := by simp
    rw [hsplit] at h ⊢
    have hfirst : Distinct (read ++ [entry]) :=
      ⟨(List.pairwise_append.mp h.keys).1, (List.pairwise_append.mp h.paths).1,
        fun e he => h.origins e (List.mem_append_left _ he)⟩
    rw [List.map_cons, List.foldl_cons, readLine_entryLine hfirst, ih h]

theorem decode_entryLines (entries : List Entry) :
    decode (encode entries) = decodeLines (entries.map entryLine) := by
  have hplain : ∀ line ∈ entries.map entryLine, '\n' ∉ line := by
    intro line hline
    obtain ⟨entry, -, rfl⟩ := List.mem_map.mp hline
    exact plain_entryLine.1
  have hchomp : (entries.map entryLine).map chomp = entries.map entryLine := by
    rw [List.map_map]
    exact List.map_congr_left fun entry _ => chomp_entryLine
  rw [encode, decode_document hplain, hchomp]

theorem decode_encode (h : Entries entries) : decode (encode entries) = entries := by
  have hread : (entries.map entryLine).foldl readLine [] = entries :=
    foldl_entryLine (show Distinct ([] ++ entries) from ⟨h.keys, h.paths, h.origins⟩)
  rw [decode_entryLines, decodeLines, hread, List.take_of_length_le h.bounded]

theorem mem_decode_encode (h : entry ∈ decode (encode entries)) : entry ∈ entries := by
  rw [decode_entryLines, decodeLines] at h
  have written {read : List Entry} {e : Entry} (he : e ∈ (entries.map entryLine).foldl readLine read) :
      e ∈ read ∨ e ∈ entries := by
    clear h
    induction entries generalizing read with
    | nil => exact .inl he
    | cons first rest ih =>
      rcases ih he with hread | hrest
      · rcases mem_readLine hread with hold | hfirst
        · exact .inl hold
        · exact .inr (hfirst ▸ List.mem_cons_self)
      · exact .inr (List.mem_cons_of_mem _ hrest)
  exact (written (List.mem_of_mem_take h)).resolve_left List.not_mem_nil

theorem filter_entryLine (h : ∀ entry ∈ entries, entry.origin ≠ .automatic) :
    (entries.map entryLine).filter wellFormed = entries.map entryLine := by
  rw [List.filter_eq_self]
  intro line hline
  obtain ⟨entry, hentry, rfl⟩ := List.mem_map.mp hline
  rw [wellFormed, chomp_entryLine, parseEntry_entryLine (h entry hentry)]
  rfl

theorem decode_damaged (h : Entries entries) {body : List Text} (hplain : ∀ line ∈ body, '\n' ∉ line)
    (same : body.filter wellFormed = entries.map entryLine) :
    decode (unlines (header :: body)) = entries := by
  rw [← decode_encode h, encode]
  refine decode_wellFormed hplain (fun line hline => ?_) ?_
  · obtain ⟨entry, -, rfl⟩ := List.mem_map.mp hline
    exact plain_entryLine.1
  · rw [same, filter_entryLine h.origins]

end RoundTrip

end RecentFormats
