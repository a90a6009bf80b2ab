import RocGui.DatabaseOpens

/-! Which texts name a place inside an opened directory, and the components they are read as,
on every platform the host is built for. -/
namespace RelativePaths

open RecentFormats TextFormats

section Components

inductive Platform where
  | unix
  | windows
  deriving DecidableEq

def backslash : UInt8 := 92
def colon : UInt8 := 58
def question : UInt8 := 63

def isSeparator : Platform → UInt8 → Bool
  | .unix, byte => byte = slash
  | .windows, byte => byte = slash || byte = backslash

def isLetter (byte : UInt8) : Bool :=
  (65 ≤ byte.toNat && byte.toNat ≤ 90) || (97 ≤ byte.toNat && byte.toNat ≤ 122)

def hasDrive : Bytes → Bool
  | letter :: byte :: _ => isLetter letter && byte = colon
  | _ => false

/-- How long a prefix is, whether what follows it is taken verbatim, and whether it is rooted
without a separator. -/
structure PathPrefix where
  length : ℕ
  verbatim : Bool
  implicitRoot : Bool

/-- What stands before the next separator, and what stands behind it. -/
def nextComponent (separator : UInt8 → Bool) (path : Bytes) : Bytes × Bytes :=
  (path.takeWhile (!separator ·), (path.dropWhile (!separator ·)).drop 1)

/-- The length of a share behind its server, with the separator between them. -/
def shareLength (share : Bytes) : ℕ := if share = [] then 0 else share.length + 1

/-- `\\?\UNC\server\share`, `\\?\C:` and `\\?\pictures`. -/
def verbatimPrefix (path : Bytes) : PathPrefix :=
  let next := nextComponent (· = backslash)
  match path with
  | 85 :: 78 :: 67 :: byte :: rest =>
    if isSeparator .windows byte then
      let (server, rest) := next rest
      ⟨8 + server.length + shareLength (next rest).1, true, true⟩
    else ⟨4 + (next path).1.length, true, true⟩
  | _ =>
    if hasDrive path ∧ path[2]?.all (isSeparator .windows) then ⟨6, true, true⟩
    else ⟨4 + (next path).1.length, true, true⟩

/-- `\\server\share`, of which neither part is empty. -/
def sharePrefix (path : Bytes) : Option PathPrefix :=
  let (server, rest) := nextComponent (isSeparator .windows) path
  let share := (nextComponent (isSeparator .windows) rest).1
  if server = [] ∨ share = [] then none
  else some ⟨2 + server.length + shareLength share, false, true⟩

/-- `\\.\COM42`, and what else begins with two separators. -/
def devicePrefix (path : Bytes) : Option PathPrefix :=
  match path with
  | 46 :: byte :: rest =>
    if isSeparator .windows byte then
      some ⟨4 + (nextComponent (isSeparator .windows) rest).1.length, false, true⟩
    else sharePrefix path
  | _ => sharePrefix path

/-- The prefix of a Windows path. Verbatim ones are written with backslashes. -/
def windowsPrefix (path : Bytes) : Option PathPrefix :=
  match path with
  | first :: second :: rest =>
    if isSeparator .windows first ∧ isSeparator .windows second then
      if path.take 4 = [backslash, backslash, question, backslash] then
        some (verbatimPrefix (path.drop 4))
      else devicePrefix rest
    else if hasDrive path then some ⟨2, false, false⟩
    else none
  | _ => none

def parsePrefix : Platform → Bytes → Option PathPrefix
  | .unix, _ => none
  | .windows, path => windowsPrefix path

inductive Component where
  | prefixComponent
  | rootDir
  | curDir
  | parentDir
  | normal (value : Bytes)
  deriving DecidableEq

/-- Empty parts are left out, and so are dots, but in a verbatim path. -/
def single (verbatim : Bool) (part : Bytes) : Option Component :=
  if part = [] then none
  else if part = [dot] then if verbatim then some .curDir else none
  else if part = [dot, dot] then some .parentDir
  else some (.normal part)

def leading (found : Option PathPrefix) (rooted : Bool) (parts : List Bytes) : List Component :=
  match found with
  | some before =>
    if rooted ∨ before.implicitRoot ∧ ¬before.verbatim then [.prefixComponent, .rootDir]
    else [.prefixComponent]
  | none => if rooted then [.rootDir] else if parts.head? = some [dot] then [.curDir] else []

/-- `Path::components`. -/
def components (platform : Platform) (path : Bytes) : List Component :=
  let found := parsePrefix platform path
  let verbatim := found.any (·.verbatim)
  let rest := path.drop (found.elim 0 (·.length))
  let parts := rest.splitOnP fun byte =>
    if verbatim then byte = backslash else isSeparator platform byte
  leading found (rest.head?.any (isSeparator platform)) parts ++ parts.filterMap (single verbatim)

def Component.normal? : Component → Option Bytes
  | .normal value => some value
  | _ => none

/-- Splits one relative path into its ordinary components. -/
def relativeComponents (platform : Platform) (path : Bytes) : Option (List Bytes) :=
  if path = [] ∨ 0 ∈ path then none
  else do
    let parts ← (components platform path).mapM Component.normal?
    if parts = [] then none else some parts

def validName (platform : Platform) (name : Bytes) : Bool :=
  (relativeComponents platform name).any fun parts => parts.length = 1

end Components

section Splitting

variable {α : Type} {p q : α → Bool} {xs : List α}

theorem mem_splitOnP {part : List α} (h : part ∈ xs.splitOnP p) :
    ∀ x ∈ part, x ∈ xs ∧ p x = false := by
  induction xs generalizing part with
  | nil =>
    rw [List.splitOnP_nil, List.mem_singleton] at h
    simp [h]
  | cons x xs ih =>
    intro y hy
    rw [List.splitOnP_cons_eq_if_modifyHead] at h
    have later {part : List α} (h : part ∈ xs.splitOnP p) (hy : y ∈ part) :
        y ∈ x :: xs ∧ p y = false := (ih h y hy).imp_left (List.mem_cons_of_mem x)
    cases hx : p x with
    | true =>
      rw [if_pos hx] at h
      rcases List.mem_cons.mp h with rfl | h
      · cases hy
      · exact later h hy
    | false =>
      rw [if_neg (by simp [hx])] at h
      obtain ⟨first, rest, hsplit⟩ := List.exists_cons_of_ne_nil (List.splitOnP_ne_nil p xs)
      rw [hsplit, List.modifyHead_cons] at h
      rcases List.mem_cons.mp h with rfl | h
      · rcases List.mem_cons.mp hy with rfl | hy
        · exact ⟨List.mem_cons_self, hx⟩
        · exact later (hsplit ▸ List.mem_cons_self) hy
      · exact later (hsplit ▸ List.mem_cons_of_mem _ h) hy

theorem splitOnP_congr (h : ∀ x ∈ xs, p x = q x) : xs.splitOnP p = xs.splitOnP q := by
  induction xs with
  | nil => simp
  | cons x xs ih =>
    rw [List.splitOnP_cons_eq_if_modifyHead, List.splitOnP_cons_eq_if_modifyHead,
      h x List.mem_cons_self, ih fun y hy => h y (List.mem_cons_of_mem x hy)]

theorem head_splitOnP (h : xs.head?.any p = false) :
    ∃ rest, xs.splitOnP p = xs.takeWhile (!p ·) :: rest := by
  induction xs with
  | nil => exact ⟨[], List.splitOnP_nil⟩
  | cons x xs ih =>
    have hx : p x = false := h
    rw [List.splitOnP_cons_eq_if_modifyHead, if_neg (by simp [hx]), List.takeWhile_cons,
      if_pos (by simp [hx])]
    cases hs : xs.head?.any p with
    | false =>
      obtain ⟨rest, hrest⟩ := ih hs
      rw [hrest]
      exact ⟨rest, rfl⟩
    | true =>
      cases xs with
      | nil => cases hs
      | cons y ys =>
        have hy : p y = true := hs
        rw [List.splitOnP_cons_eq_if_modifyHead, if_pos hy, List.takeWhile_cons,
          if_neg (by simp [hy])]
        exact ⟨_, rfl⟩

end Splitting

section Acceptance

variable {platform : Platform} {path : Bytes} {parts cs : List Bytes}

/-- The path starts with a separator, or with a drive where there are drives. -/
def Anchored (platform : Platform) (path : Bytes) : Prop :=
  path.head?.any (isSeparator platform) = true ∨ platform = .windows ∧ hasDrive path = true

instance : Decidable (Anchored platform path) := inferInstanceAs (Decidable (_ ∨ _))

/-- The parts of a path that has no prefix. -/
def partsOf (platform : Platform) (path : Bytes) : List Bytes := path.splitOnP (isSeparator platform)

def Ordinary (part : Bytes) : Prop := part ≠ [] ∧ part ≠ [dot] ∧ part ≠ [dot, dot]

instance (part : Bytes) : Decidable (Ordinary part) := inferInstanceAs (Decidable (_ ∧ _))

theorem not_anchored (h : ¬Anchored platform path) : parsePrefix platform path = none ∧
    path.head?.any (isSeparator platform) = false := by
  obtain ⟨hroot, hdrive⟩ := not_or.mp h
  refine ⟨?_, by simpa using hroot⟩
  cases platform with
  | unix => rfl
  | windows =>
    have hdrive : hasDrive path = false := by simpa using hdrive
    rw [parsePrefix, windowsPrefix.eq_def]
    match path with
    | [] => rfl
    | [_] => rfl
    | first :: second :: rest =>
      have hfirst : ¬isSeparator .windows first = true := hroot
      dsimp only
      rw [if_neg fun h => hfirst h.1, hdrive]
      rfl

theorem components_unanchored (h : ¬Anchored platform path) : components platform path =
    (if (partsOf platform path).head? = some [dot] then [.curDir] else []) ++
      (partsOf platform path).filterMap (single false) := by
  obtain ⟨hleads, hroot⟩ := not_anchored h
  simp only [components, hleads, Option.any_none, Option.elim_none, List.drop_zero, leading, hroot,
    Bool.false_eq_true, if_false, partsOf]
  rfl

/-- A prefix and the root are refused, whatever follows. -/
theorem anchored_refused (h : Anchored platform path) : relativeComponents platform path = none := by
  have refused : ∃ first rest, components platform path = first :: rest ∧ first.normal? = none := by
    rw [components]
    cases hleads : parsePrefix platform path with
    | some before =>
      rw [leading]
      split <;> exact ⟨_, _, rfl, rfl⟩
    | none =>
      rcases h with hroot | ⟨rfl, hdrive⟩
      · have hroot : (path.drop 0).head?.any (isSeparator platform) = true := hroot
        rw [leading, Option.elim_none, if_pos hroot]
        exact ⟨_, _, rfl, rfl⟩
      · rw [parsePrefix, windowsPrefix.eq_def] at hleads
        match path, hdrive with
        | first :: second :: rest, hdrive =>
          dsimp only at hleads
          split at hleads
          · rename_i hboth
            have hletter : isLetter first = true := by
              rw [hasDrive, Bool.and_eq_true] at hdrive
              exact hdrive.1
            have hsep := hboth.1
            simp only [isSeparator, Bool.or_eq_true, decide_eq_true_eq] at hsep
            rcases hsep with rfl | rfl <;> cases hletter
          · cases hleads
  obtain ⟨first, rest, hcomponents, hfirst⟩ := refused
  rw [relativeComponents, hcomponents, List.mapM_cons, hfirst]
  split <;> rfl

theorem mapM_single : (parts.filterMap (single false)).mapM Component.normal? =
    if [dot, dot] ∈ parts then none else some (parts.filter (Ordinary ·)) := by
  induction parts with
  | nil => rfl
  | cons part rest ih =>
    have hdots : single false [dot, dot] = some .parentDir := by decide
    by_cases hpart : Ordinary part
    · have hsingle : single false part = some (.normal part) := by
        simp [single, hpart.1, hpart.2.1, hpart.2.2]
      have hmem : [dot, dot] ∈ part :: rest ↔ [dot, dot] ∈ rest := by
        rw [List.mem_cons, or_iff_right fun h => hpart.2.2 h.symm]
      rw [List.filterMap_cons, hsingle, List.mapM_cons, ih,
        List.filter_cons_of_pos (by simpa using hpart)]
      simp only [hmem]
      split <;> rfl
    · by_cases hparent : part = [dot, dot]
      · rw [hparent, List.filterMap_cons, hdots, List.mapM_cons, if_pos List.mem_cons_self]
        rfl
      · have hsingle : single false part = none := by
          by_cases hempty : part = []
          · rw [single, if_pos hempty]
          · have hdot : part = [dot] := by
              by_contra hdot
              exact hpart ⟨hempty, hdot, hparent⟩
            rw [hdot]
            decide
        have hmem : [dot, dot] ∈ part :: rest ↔ [dot, dot] ∈ rest := by
          rw [List.mem_cons, or_iff_right fun h => hparent h.symm]
        rw [List.filterMap_cons, hsingle, List.filter_cons_of_neg (by simpa using hpart)]
        simp only [hmem]
        exact ih

theorem relative_iff : relativeComponents platform path = some cs ↔
    (0 ∉ path ∧ ¬Anchored platform path ∧ (partsOf platform path).head? ≠ some [dot] ∧
      [dot, dot] ∉ partsOf platform path) ∧
      (partsOf platform path).filter (Ordinary ·) = cs ∧ cs ≠ [] := by
  by_cases anchored : Anchored platform path
  · simp [anchored_refused anchored, anchored]
  by_cases hempty : path = []
  · have hnil : partsOf platform [] = [[]] := List.splitOnP_nil
    rw [relativeComponents, if_pos (.inl hempty), hempty, hnil]
    simp [Ordinary]
  by_cases hzero : 0 ∈ path
  · simp [relativeComponents, hzero]
  rw [relativeComponents, if_neg (by simp [hempty, hzero]), components_unanchored anchored]
  by_cases hdot : (partsOf platform path).head? = some [dot]
  · rw [if_pos hdot, List.singleton_append, List.mapM_cons]
    simp [hdot, Component.normal?]
  · rw [if_neg hdot, List.nil_append, mapM_single]
    by_cases hdots : [dot, dot] ∈ partsOf platform path
    · simp [hdots]
    · rw [if_neg hdots]
      by_cases hnone : (partsOf platform path).filter (Ordinary ·) = []
      · simp [hnone, hzero, anchored, hdot, hdots]
      · simp only [Option.bind_eq_bind, Option.bind_some, hnone, if_false, Option.some.injEq]
        constructor
        · rintro rfl
          exact ⟨⟨hzero, anchored, hdot, hdots⟩, rfl, hnone⟩
        · exact fun h => h.2.1

theorem relative_on_unix : DatabaseOpens.relativeComponents path = relativeComponents .unix path := by
  have hparts : partsOf .unix path = path.splitOn slash := by
    rw [List.splitOn_eq_splitOnP]
    exact splitOnP_congr fun _ _ => rfl
  have hanchored : Anchored .unix path ↔ path.head? = some slash := by
    simp [Anchored, isSeparator, Option.any_eq_true]
  refine Option.ext fun cs => ?_
  rw [relative_iff, hparts, hanchored, DatabaseOpens.relativeComponents]
  by_cases hempty : path = []
  · have hnil : ([] : Bytes).splitOn slash = [[]] := List.splitOn_nil slash
    simp [hempty, hnil, Ordinary]
  by_cases hzero : 0 ∈ path
  · simp [hzero]
  rw [if_neg (by simp [hempty, hzero])]
  by_cases hroot : path.head? = some slash
  · simp [RecentFormats.components, hroot]
  by_cases hdot : (path.splitOn slash).head? = some [dot]
  · simp [RecentFormats.components, hroot, hdot]
  have hparts : RecentFormats.components path =
      (false, (path.splitOn slash).filter fun part => part ≠ [] ∧ part ≠ [dot]) := by
    rw [RecentFormats.components, decide_eq_false hroot, if_neg fun h => hdot h.2, List.nil_append]
  rw [hparts]
  by_cases hdots : [dot, dot] ∈ path.splitOn slash
  · have hkept : [dot, dot] ∈ (path.splitOn slash).filter fun part => part ≠ [] ∧ part ≠ [dot] :=
      List.mem_filter.mpr ⟨hdots, by decide⟩
    simp only [hkept, hdots, true_or, or_true, if_true, not_true_eq_false, and_false, false_and]
    exact ⟨nofun, nofun⟩
  have hfilter : (path.splitOn slash).filter (fun part => part ≠ [] ∧ part ≠ [dot]) =
      (path.splitOn slash).filter (Ordinary ·) := by
    refine List.filter_congr fun part hpart => decide_eq_decide.mpr ?_
    have hne : part ≠ [dot, dot] := fun h => hdots (h ▸ hpart)
    exact ⟨fun h => ⟨h.1, h.2, hne⟩, fun h => ⟨h.1, h.2.1⟩⟩
  have hone : [dot] ∉ (path.splitOn slash).filter (Ordinary ·) := by
    simp [Ordinary]
  have htwo : [dot, dot] ∉ (path.splitOn slash).filter (Ordinary ·) := by
    simp [Ordinary]
  rw [hfilter]
  by_cases hnone : (path.splitOn slash).filter (Ordinary ·) = []
  · simp only [hnone, or_true, if_true]
    refine ⟨nofun, ?_⟩
    rintro ⟨-, rfl, hne⟩
    exact absurd rfl hne
  · simp only [Bool.false_eq_true, hone, htwo, hnone, or_self, if_false, Option.some.injEq]
    constructor
    · rintro rfl
      exact ⟨⟨hzero, hroot, hdot, hdots⟩, rfl, hnone⟩
    · exact fun h => h.2.1

end Acceptance

section Exactness

variable {platform : Platform} {path : Bytes} {cs : List Bytes}

/-- A single part that no platform reads as more than itself. -/
structure IsComponent (platform : Platform) (part : Bytes) : Prop where
  ordinary : Ordinary part
  plain : 0 ∉ part
  whole : ∀ byte ∈ part, isSeparator platform byte = false
  driveless : platform = .windows → hasDrive part = false

/-- The path is these components, joined by single slashes. -/
structure Spelled (platform : Platform) (path : Bytes) (cs : List Bytes) : Prop where
  nonempty : cs ≠ []
  components : ∀ c ∈ cs, IsComponent platform c
  joined : path = [slash].intercalate cs

/-- The path is accepted and says something other than what it is read as: an empty part or a
dot behind its first part, or on Windows a backslash or a drive there. -/
structure Rewritten (platform : Platform) (path : Bytes) : Prop where
  plain : 0 ∉ path
  nonempty : path ≠ []
  relative : ¬Anchored platform path
  here : (partsOf platform path).head? ≠ some [dot]
  inside : [dot, dot] ∉ partsOf platform path
  changed : (∃ part ∈ partsOf platform path, part = [] ∨ part = [dot]) ∨
    platform = .windows ∧
      (backslash ∈ path ∨ ∃ part ∈ partsOf platform path, hasDrive part = true)

theorem slash_separates (platform : Platform) : isSeparator platform slash = true := by
  cases platform <;> rfl

theorem separator_cases {byte : UInt8} (h : isSeparator platform byte = true) :
    byte = slash ∨ platform = .windows ∧ byte = backslash := by
  cases platform with
  | unix => exact .inl (by simpa [isSeparator] using h)
  | windows => simpa [isSeparator] using h

theorem parts_slashes (h : platform = .windows → backslash ∉ path) :
    partsOf platform path = path.splitOn slash := by
  rw [List.splitOn_eq_splitOnP]
  refine splitOnP_congr fun byte hbyte => ?_
  cases hsep : isSeparator platform byte with
  | true =>
    rcases separator_cases hsep with rfl | ⟨hw, rfl⟩
    · rfl
    · exact absurd hbyte (h hw)
  | false =>
    have hne : byte ≠ slash := by
      rintro rfl
      rw [slash_separates] at hsep
      cases hsep
    simp [hne]

theorem mem_intercalate {byte : UInt8} (h : byte ∈ [slash].intercalate cs) :
    byte = slash ∨ ∃ c ∈ cs, byte ∈ c := by
  induction cs with
  | nil => cases h
  | cons c rest ih =>
    cases rest with
    | nil =>
      rw [List.intercalate_singleton] at h
      exact .inr ⟨c, List.mem_cons_self, h⟩
    | cons d more =>
      rw [List.intercalate_cons_cons, List.mem_append, List.mem_append, List.mem_singleton] at h
      rcases h with (h | h) | h
      · exact .inr ⟨c, List.mem_cons_self, h⟩
      · exact .inl h
      · exact (ih h).imp_right fun ⟨d, hd, hmem⟩ => ⟨d, List.mem_cons_of_mem _ hd, hmem⟩

theorem Spelled.no_backslash (h : Spelled platform path cs) (hw : platform = .windows) :
    backslash ∉ path := by
  intro hmem
  rw [h.joined] at hmem
  rcases mem_intercalate hmem with hslash | ⟨c, hc, hmem⟩
  · cases hslash
  · have := (h.components c hc).whole _ hmem
    rw [hw] at this
    cases this

theorem Spelled.parts (h : Spelled platform path cs) : partsOf platform path = cs := by
  rw [parts_slashes h.no_backslash, h.joined]
  refine List.splitOn_intercalate slash (fun c hc hmem => ?_) h.nonempty
  have := (h.components c hc).whole slash hmem
  rw [slash_separates] at this
  cases this

theorem Spelled.relative (h : Spelled platform path cs) : ¬Anchored platform path := by
  obtain ⟨c, rest, rfl⟩ := List.exists_cons_of_ne_nil h.nonempty
  have hc := h.components c List.mem_cons_self
  obtain ⟨byte, tail, rfl⟩ := List.exists_cons_of_ne_nil hc.ordinary.1
  obtain ⟨behind, hpath⟩ : ∃ behind, path = (byte :: tail) ++ behind ∧
      (behind = [] ∨ behind.head? = some slash) := by
    rw [h.joined]
    cases rest with
    | nil => exact ⟨[], by simp, .inl rfl⟩
    | cons d more => exact ⟨slash :: [slash].intercalate (d :: more), by simp, .inr rfl⟩
  rintro (hroot | ⟨hw, hdrive⟩)
  · rw [hpath.1, List.cons_append, List.head?_cons, Option.any_some,
      hc.whole byte List.mem_cons_self] at hroot
    cases hroot
  · have hplain := hc.driveless hw
    cases tail with
    | nil =>
      rcases hpath.2 with rfl | hslash
      · rw [hpath.1] at hdrive
        cases hdrive
      · cases behind with
        | nil => cases hslash
        | cons next more =>
          obtain rfl := Option.some.inj hslash
          rw [hpath.1] at hdrive
          simp [hasDrive, slash, colon] at hdrive
    | cons next more =>
      rw [hpath.1] at hdrive
      exact Bool.false_ne_true (hplain.symm.trans hdrive)

theorem Spelled.accepted (h : Spelled platform path cs) :
    relativeComponents platform path = some cs := by
  rw [relative_iff, h.parts]
  have ordinary (c : Bytes) (hc : c ∈ cs) : Ordinary c := (h.components c hc).ordinary
  refine ⟨⟨fun hzero => ?_, h.relative, fun hdot => ?_, fun hdots => ?_⟩, ?_, h.nonempty⟩
  · rw [h.joined] at hzero
    rcases mem_intercalate hzero with hslash | ⟨c, hc, hmem⟩
    · cases hslash
    · exact (h.components c hc).plain hmem
  · exact (ordinary _ (List.mem_of_mem_head? hdot)).2.1 rfl
  · exact (ordinary _ hdots).2.2 rfl
  · exact List.filter_eq_self.mpr fun c hc => decide_eq_true (ordinary c hc)

theorem spelled_of_accepted (h : relativeComponents platform path = some cs)
    (same : ¬Rewritten platform path) : Spelled platform path cs := by
  obtain ⟨⟨hzero, hrelative, hdot, hdots⟩, hcs, hne⟩ := relative_iff.mp h
  have hpath : path ≠ [] := by
    rintro rfl
    have hnil : partsOf platform [] = [[]] := List.splitOnP_nil
    rw [hnil] at hcs
    exact hne (by simpa [Ordinary] using hcs.symm)
  have unchanged := fun changed => same ⟨hzero, hpath, hrelative, hdot, hdots, changed⟩
  have ordinary (part : Bytes) (hpart : part ∈ partsOf platform path) : Ordinary part := by
    refine ⟨fun hempty => unchanged (.inl ⟨part, hpart, .inl hempty⟩),
      fun hdot => unchanged (.inl ⟨part, hpart, .inr hdot⟩), ?_⟩
    rintro rfl
    exact hdots hpart
  obtain rfl : partsOf platform path = cs := by
    rw [← hcs, eq_comm]
    exact List.filter_eq_self.mpr fun c hc => decide_eq_true (ordinary c hc)
  refine ⟨hne, fun c hc => ⟨ordinary c hc, fun hmem => ?_, fun byte hmem => ?_, fun hw => ?_⟩, ?_⟩
  · exact hzero (mem_splitOnP hc 0 hmem).1
  · exact (mem_splitOnP hc byte hmem).2
  · by_contra hdrive
    exact unchanged (.inr ⟨hw, .inr ⟨c, hc, by simpa using hdrive⟩⟩)
  · rw [parts_slashes fun hw hmem => unchanged (.inr ⟨hw, .inl hmem⟩), List.intercalate_splitOn]

theorem Rewritten.accepted (h : Rewritten platform path) :
    ∃ cs, relativeComponents platform path = some cs := by
  refine ⟨_, relative_iff.mpr ⟨⟨h.plain, h.relative, h.here, h.inside⟩, rfl, ?_⟩⟩
  have hroot : path.head?.any (isSeparator platform) = false :=
    (not_anchored h.relative).2
  obtain ⟨rest, hparts⟩ := head_splitOnP hroot
  have hfirst : Ordinary (path.takeWhile (!isSeparator platform ·)) := by
    refine ⟨fun hempty => ?_, fun hdot => h.here ?_, fun hdots => h.inside ?_⟩
    · obtain ⟨byte, tail, rfl⟩ := List.exists_cons_of_ne_nil h.nonempty
      have hbyte : isSeparator platform byte = false := hroot
      rw [List.takeWhile_cons, if_pos (by simp [hbyte])] at hempty
      cases hempty
    · rw [partsOf, hparts, hdot]
      rfl
    · rw [partsOf, hparts, hdots]
      exact List.mem_cons_self
  rw [partsOf, hparts, List.filter_cons_of_pos (by simpa using hfirst)]
  exact List.cons_ne_nil _ _

theorem Rewritten.unspelled (h : Rewritten platform path) : ¬Spelled platform path cs := by
  intro spelled
  rcases h.changed with ⟨part, hpart, hbad⟩ | ⟨hw, hslash | ⟨part, hpart, hdrive⟩⟩
  · rw [spelled.parts] at hpart
    exact hbad.elim (spelled.components part hpart).ordinary.1
      (spelled.components part hpart).ordinary.2.1
  · exact spelled.no_backslash hw hslash
  · rw [spelled.parts] at hpart
    rw [(spelled.components part hpart).driveless hw] at hdrive
    cases hdrive

/-- A path is accepted as what it spells, and a name as the one component it is, unless the
path is rewritten. -/
theorem relative_exact (platform : Platform) (path : Bytes) :
    ((∀ cs, relativeComponents platform path = some cs ↔ Spelled platform path cs) ∧
        (validName platform path = true → IsComponent platform path)) ↔
      ¬Rewritten platform path := by
  constructor
  · rintro ⟨exact, -⟩ rewritten
    obtain ⟨cs, hcs⟩ := rewritten.accepted
    exact rewritten.unspelled ((exact cs).mp hcs)
  · intro same
    refine ⟨fun cs => ⟨fun h => spelled_of_accepted h same, Spelled.accepted⟩, fun hname => ?_⟩
    rw [validName, Option.any_eq_true] at hname
    obtain ⟨cs, hcs, hone⟩ := hname
    obtain ⟨c, rfl⟩ := List.length_eq_one_iff.mp (of_decide_eq_true hone)
    have spelled := spelled_of_accepted hcs same
    have hpath : path = c := by rw [spelled.joined, List.intercalate_singleton]
    exact hpath ▸ spelled.components c List.mem_cons_self

def trailingSlash : Bytes := [99, 104, 105, 108, 100, 47]

/-- A slash behind a name is dropped, and the name accepted. -/
theorem trailing_slash_accepted : ¬∀ platform path,
    (∀ cs, relativeComponents platform path = some cs ↔ Spelled platform path cs) ∧
      (validName platform path = true → IsComponent platform path) := by
  intro claim
  have hname : validName .unix trailingSlash = true := by decide
  have whole := ((claim .unix trailingSlash).2 hname).whole slash (by decide)
  rw [slash_separates] at whole
  cases whole

end Exactness

end RelativePaths
