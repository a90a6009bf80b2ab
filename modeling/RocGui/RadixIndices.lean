import Mathlib.Tactic.Common
import RocGui.OrderTables

/-! The persistent index: a radix tree over the nibbles of a 64-bit key, the lowest first. A leaf
keeps the rest of its key and is split only where another key meets it. -/
namespace RadixIndices

open Methods OrderTables

inductive Index (α : Type) where
  | empty
  | branch (children : List (Index α))
  | value (key : UInt64) (value : α)

namespace Index

variable {ε α : Type}

def isEmpty : Index α → Bool
  | .empty => true
  | _ => false

def slot (key : UInt64) : ℕ := (key % 16).toNat

/-- `update` of a list, or a crash. -/
def updateAt (message : String) (children : List (Index α)) (slot : ℕ)
    (change : Index α → Except (Failure ε) (Index α)) : Except (Failure ε) (List (Index α)) := do
  let child ← orCrash message children[slot]?
  return children.set slot (← change child)

section Levels

-- The number counts the levels of branches that a call may still pass.

def getFrom : ℕ → Index α → UInt64 → Except (Failure ε) (Option α)
  | _, .empty, _ => .ok none
  | _, .value stored held, key => .ok (if stored = key then some held else none)
  | 0, .branch _, _ => .error .diverges
  | levels + 1, .branch children, key => do
    let child ← orCrash "invalid index branch" children[slot key]?
    getFrom levels child (key / 16)

def setFrom : ℕ → Index α → UInt64 → α → Except (Failure ε) (Index α)
  | _, .empty, key, next => .ok (.value key next)
  | levels, .value stored previous, key, next =>
    if stored = key then .ok (.value key next)
    else match levels with
      | 0 => .error .diverges
      | levels + 1 => do
        let children := List.replicate 16 .empty
        let withPrevious ← orCrash "invalid index split"
          (setAt children (slot stored) (.value (stored / 16) previous))
        return .branch (← updateAt "invalid index update" withPrevious (slot key) fun child =>
          setFrom levels child (key / 16) next)
  | 0, .branch _, _, _ => .error .diverges
  | levels + 1, .branch children, key, next => do
    return .branch (← updateAt "invalid index update" children (slot key) fun child =>
      setFrom levels child (key / 16) next)

def removeFrom : ℕ → Index α → UInt64 → Except (Failure ε) (Index α)
  | _, .empty, _ => .ok .empty
  | _, .value stored held, key => .ok (if stored = key then .empty else .value stored held)
  | 0, .branch _, _ => .error .diverges
  | levels + 1, .branch children, key => do
    let updated ← updateAt "invalid index removal" children (slot key) fun child =>
      removeFrom levels child (key / 16)
    return if updated.all isEmpty then .empty else .branch updated

end Levels

/-- A key has sixteen nibbles. -/
def nibbles : ℕ := 16

def get (index : Index α) (key : UInt64) : Except (Failure ε) (Option α) := getFrom nibbles index key

def set (index : Index α) (key : UInt64) (value : α) : Except (Failure ε) (Index α) :=
  setFrom nibbles index key value

def remove (index : Index α) (key : UInt64) : Except (Failure ε) (Index α) :=
  removeFrom nibbles index key

/-- A tree that has at most so many levels of branches. A leaf has no more of its key than the levels
below it tell apart; a branch has sixteen children and one that is not empty. -/
def Formed : ℕ → Index α → Prop
  | _, .empty => True
  | levels, .value key _ => key.toNat < 16 ^ levels
  | 0, .branch _ => False
  | levels + 1, .branch children =>
    children.length = 16 ∧ (∀ child ∈ children, Formed levels child) ∧ ∃ child ∈ children, child.isEmpty = false

section Keys

variable {key other : UInt64} {levels : ℕ}

theorem slot_eq (key : UInt64) : slot key = key.toNat % 16 := by
  simp [slot]

theorem slot_lt (key : UInt64) : slot key < 16 := by
  rw [slot_eq]
  omega

theorem rest_toNat (key : UInt64) : (key / 16).toNat = key.toNat / 16 := by
  simp

theorem rest_lt (h : key.toNat < 16 ^ (levels + 1)) : (key / 16).toNat < 16 ^ levels := by
  rw [rest_toNat]
  rw [pow_succ] at h
  omega

theorem key_ext (hslot : slot key = slot other) (hrest : key / 16 = other / 16) : key = other := by
  apply UInt64.toNat_inj.mp
  have hdiv : key.toNat / 16 = other.toNat / 16 := by
    rw [← rest_toNat, ← rest_toNat, hrest]
  rw [slot_eq, slot_eq] at hslot
  omega

theorem key_unique (h : key.toNat < 16 ^ 0) (h' : other.toNat < 16 ^ 0) : key = other := by
  apply UInt64.toNat_inj.mp
  rw [pow_zero] at h h'
  omega

theorem key_bounded (key : UInt64) : key.toNat < 16 ^ nibbles := by
  have h := key.toNat_lt
  rw [nibbles]
  omega

end Keys

section Lookups

variable {levels : ℕ} {index : Index α} {children : List (Index α)} {key : UInt64}

theorem formed_empty (levels : ℕ) : Formed levels (.empty : Index α) := by
  cases levels <;> trivial

theorem formed_value {value : α} (h : key.toNat < 16 ^ levels) : Formed levels (.value key value) := by
  cases levels <;> exact h

theorem formed_child (h : Formed (levels + 1) (.branch children)) (key : UInt64) :
    ∃ child, children[slot key]? = some child ∧ Formed levels child := by
  obtain ⟨hlength, hchildren, -⟩ := h
  have hlt : slot key < children.length := hlength ▸ slot_lt key
  exact ⟨children[slot key], List.getElem?_eq_getElem hlt, hchildren _ (List.getElem_mem hlt)⟩

def lookup : ℕ → Index α → UInt64 → Option α
  | _, .empty, _ => none
  | _, .value stored held, key => if stored = key then some held else none
  | 0, .branch _, _ => none
  | levels + 1, .branch children, key =>
    children[slot key]?.bind fun child => lookup levels child (key / 16)

@[simp] theorem lookup_empty (levels : ℕ) (key : UInt64) : lookup levels (.empty : Index α) key = none := by
  cases levels <;> rfl

@[simp] theorem lookup_value (levels : ℕ) (stored : UInt64) (held : α) (key : UInt64) :
    lookup levels (.value stored held) key = if stored = key then some held else none := by
  cases levels <;> rfl

theorem get_from (h : Formed levels index) (key : UInt64) :
    (getFrom levels index key : Except (Failure ε) _) = .ok (lookup levels index key) := by
  induction levels generalizing index key with
  | zero => cases index <;> first | rfl | exact h.elim
  | succ levels ih =>
    cases index with
    | empty | value => rfl
    | branch children =>
      obtain ⟨child, hchild, hformed⟩ := formed_child h key
      simp only [getFrom, lookup, hchild, orCrash, Option.bind_some]
      exact ih hformed (key / 16)

theorem update_at {message : String} {change : Index α → Except (Failure ε) (Index α)} {slot : ℕ}
    {child child' : Index α} (hchild : children[slot]? = some child) (hchange : change child = .ok child') :
    updateAt message children slot change = .ok (children.set slot child') := by
  simp only [updateAt, hchild, orCrash]
  change (do return children.set slot (← change child)) = _
  rw [hchange]
  rfl

theorem lookup_updated {child' : Index α} (hlength : children.length = 16) (x : UInt64) :
    lookup (levels + 1) (.branch (children.set (slot key) child')) x =
      if slot x = slot key then lookup levels child' (x / 16)
      else lookup (levels + 1) (.branch children) x := by
  have hlt : slot key < children.length := hlength ▸ slot_lt key
  by_cases h : slot x = slot key
  · rw [if_pos h, lookup, h, List.getElem?_set_self hlt, Option.bind_some]
  · rw [if_neg h, lookup, lookup, List.getElem?_set_ne (Ne.symm h)]

theorem lookup_changed {child child' : Index α} {now : Option α} (hlength : children.length = 16)
    (hchild : children[slot key]? = some child)
    (found : ∀ y, lookup levels child' y = if y = key / 16 then now else lookup levels child y) (x : UInt64) :
    lookup (levels + 1) (.branch (children.set (slot key) child')) x =
      if x = key then now else lookup (levels + 1) (.branch children) x := by
  rw [lookup_updated hlength, found]
  by_cases hslot : slot x = slot key
  · have same : x / 16 = key / 16 ↔ x = key := ⟨key_ext hslot, fun heq => heq ▸ rfl⟩
    rw [if_pos hslot, lookup, hslot, hchild, Option.bind_some]
    simp only [same]
  · have hne : x ≠ key := fun heq => hslot (heq ▸ rfl)
    rw [if_neg hslot, if_neg hne]

theorem children_updated {child' : Index α} (h : ∀ child ∈ children, Formed levels child)
    (hchild : Formed levels child') (slot : ℕ) : ∀ c ∈ children.set slot child', Formed levels c := by
  intro c hc
  rcases List.mem_or_eq_of_mem_set hc with hc | rfl
  · exact h c hc
  · exact hchild

end Lookups

section Edits

variable {levels : ℕ} {index : Index α} {key : UInt64} {next : α}

structure Sets (levels : ℕ) (index : Index α) (key : UInt64) (next : α) (index' : Index α) : Prop where
  formed : Formed levels index'
  full : index'.isEmpty = false
  found : ∀ x, lookup levels index' x = if x = key then some next else lookup levels index x

theorem sets_value (hkey : key.toNat < 16 ^ levels)
    (hother : ∀ x, x ≠ key → lookup levels index x = none) : Sets levels index key next (.value key next) := by
  constructor
  · exact formed_value hkey
  · rfl
  · intro x
    rw [lookup_value]
    by_cases h : x = key
    · rw [if_pos h, if_pos h.symm]
    · rw [if_neg h, if_neg (Ne.symm h), hother x h]

theorem sets_below {children : List (Index α)} (hlength : children.length = 16)
    (hformed : ∀ child ∈ children, Formed levels child) {child child' : Index α}
    (hchild : children[slot key]? = some child) (h : Sets levels child (key / 16) next child') :
    Sets (levels + 1) (.branch children) key next (.branch (children.set (slot key) child')) := by
  have hlt : slot key < children.length := hlength ▸ slot_lt key
  constructor
  · refine ⟨by rw [List.length_set, hlength], children_updated hformed h.formed _, child', ?_, h.full⟩
    exact List.mem_set hlt child'
  · rfl
  · exact lookup_changed hlength hchild h.found

theorem set_child {children : List (Index α)} (hlength : children.length = 16)
    (hformed : ∀ child ∈ children, Formed levels child)
    (below : ∀ child, Formed levels child → ∃ child', (setFrom levels child (key / 16) next :
      Except (Failure ε) _) = .ok child' ∧ Sets levels child (key / 16) next child') :
    ∃ updated, (updateAt "invalid index update" children (slot key) fun child =>
        setFrom levels child (key / 16) next : Except (Failure ε) _) = .ok updated ∧
      Sets (levels + 1) (.branch children) key next (.branch updated) := by
  have hlt : slot key < children.length := hlength ▸ slot_lt key
  have hchild := List.getElem?_eq_getElem hlt
  obtain ⟨child', hrun, hsets⟩ := below _ (hformed _ (List.getElem_mem hlt))
  exact ⟨_, update_at hchild hrun, sets_below hlength hformed hchild hsets⟩

def splitLeaf (stored : UInt64) (previous : α) : List (Index α) :=
  (List.replicate 16 .empty).set (slot stored) (.value (stored / 16) previous)

theorem split_length (stored : UInt64) (previous : α) : (splitLeaf stored previous).length = 16 := by
  rw [splitLeaf, List.length_set, List.length_replicate]

theorem split_formed {stored : UInt64} {previous : α} (h : stored.toNat < 16 ^ (levels + 1)) :
    ∀ child ∈ splitLeaf stored previous, Formed levels child := by
  intro child hchild
  rcases List.mem_or_eq_of_mem_set hchild with hchild | rfl
  · rw [List.eq_of_mem_replicate hchild]
    exact formed_empty levels
  · exact formed_value (rest_lt h)

theorem lookup_split (stored : UInt64) (previous : α) (x : UInt64) :
    lookup (levels + 1) (.branch (splitLeaf stored previous)) x =
      lookup (levels + 1) (.value stored previous) x := by
  have hempty : lookup (levels + 1) (.branch (List.replicate 16 (.empty : Index α))) x = none := by
    rw [lookup, List.getElem?_replicate, if_pos (slot_lt x), Option.bind_some, lookup_empty]
  rw [splitLeaf, lookup_updated List.length_replicate, lookup_value, lookup_value, hempty]
  by_cases hslot : slot x = slot stored
  · have same : stored / 16 = x / 16 ↔ stored = x := ⟨key_ext hslot.symm, fun heq => heq ▸ rfl⟩
    rw [if_pos hslot]
    simp only [same]
  · have hne : stored ≠ x := fun heq => hslot (heq ▸ rfl)
    rw [if_neg hslot, if_neg hne]

theorem set_from (h : Formed levels index) (hkey : key.toNat < 16 ^ levels) :
    ∃ index', (setFrom levels index key next : Except (Failure ε) _) = .ok index' ∧
      Sets levels index key next index' := by
  induction levels generalizing index key with
  | zero =>
    cases index with
    | empty => exact ⟨_, rfl, sets_value hkey fun x _ => lookup_empty 0 x⟩
    | value stored previous =>
      have same : stored = key := key_unique h hkey
      refine ⟨.value key next, if_pos same, sets_value hkey fun x hx => ?_⟩
      rw [lookup_value, if_neg fun heq => hx (heq.symm.trans same)]
    | branch children => exact h.elim
  | succ levels ih =>
    have below (child : Index α) (hchild : Formed levels child) := ih hchild (rest_lt hkey)
    cases index with
    | empty => exact ⟨_, rfl, sets_value hkey fun x _ => lookup_empty _ x⟩
    | value stored previous =>
      by_cases same : stored = key
      · refine ⟨.value key next, if_pos same, sets_value hkey fun x hx => ?_⟩
        rw [lookup_value, if_neg fun heq => hx (heq.symm.trans same)]
      · obtain ⟨updated, hrun, hsets⟩ := set_child (split_length stored previous) (split_formed h) below
        refine ⟨.branch updated, ?_, hsets.formed, hsets.full, fun x => ?_⟩
        · have hset : setAt (List.replicate 16 .empty) (slot stored) (.value (stored / 16) previous) =
              some (splitLeaf stored previous) := if_pos (by simpa using slot_lt stored)
          simp only [setFrom, if_neg same, hset, orCrash]
          change (do return Index.branch (← updateAt _ (splitLeaf stored previous) _ _)) = _
          rw [hrun]
          rfl
        · rw [hsets.found, lookup_split]
    | branch children =>
      obtain ⟨updated, hrun, hsets⟩ := set_child h.1 h.2.1 below
      refine ⟨.branch updated, ?_, hsets⟩
      rw [setFrom, hrun]
      rfl

structure Removes (levels : ℕ) (index : Index α) (key : UInt64) (index' : Index α) : Prop where
  formed : Formed levels index'
  found : ∀ x, lookup levels index' x = if x = key then none else lookup levels index x

theorem lookup_all_empty {children : List (Index α)} (h : children.all isEmpty = true) (x : UInt64) :
    lookup (levels + 1) (.branch children) x = none := by
  rw [lookup]
  cases hchild : children[slot x]? with
  | none => rfl
  | some child =>
    have hempty := List.all_eq_true.mp h child (List.mem_of_getElem? hchild)
    cases child with
    | empty => rw [Option.bind_some, lookup_empty]
    | branch | value => cases hempty

theorem remove_leaf {stored : UInt64} {held : α} (h : stored.toNat < 16 ^ levels) (key : UInt64) :
    Removes levels (.value stored held) key (if stored = key then .empty else .value stored held) := by
  split
  · rename_i same
    refine ⟨formed_empty levels, fun x => ?_⟩
    rw [lookup_empty, lookup_value, same]
    by_cases hx : x = key
    · rw [if_pos hx]
    · rw [if_neg hx, if_neg (Ne.symm hx)]
  · rename_i hne
    refine ⟨formed_value h, fun x => ?_⟩
    rw [lookup_value]
    split
    · rename_i heq
      rw [if_neg fun hx => hne (heq.trans hx)]
    · rw [ite_self]

theorem remove_from (h : Formed levels index) (key : UInt64) :
    ∃ index', (removeFrom levels index key : Except (Failure ε) _) = .ok index' ∧
      Removes levels index key index' := by
  induction levels generalizing index key with
  | zero =>
    cases index with
    | empty => exact ⟨_, rfl, formed_empty 0, by simp⟩
    | value stored held => exact ⟨_, rfl, remove_leaf h key⟩
    | branch children => exact h.elim
  | succ levels ih =>
    cases index with
    | empty => exact ⟨_, rfl, formed_empty _, by simp⟩
    | value stored held => exact ⟨_, rfl, remove_leaf h key⟩
    | branch children =>
      obtain ⟨hlength, hformed, -⟩ := h
      have hlt : slot key < children.length := hlength ▸ slot_lt key
      have hchild := List.getElem?_eq_getElem hlt
      obtain ⟨child', hrun, hremoves⟩ := ih (hformed _ (List.getElem_mem hlt)) (key / 16)
      have found := lookup_changed hlength hchild hremoves.found
      refine ⟨if (children.set (slot key) child').all isEmpty then .empty
        else .branch (children.set (slot key) child'), ?_, ?_⟩
      · rw [removeFrom, update_at hchild hrun]
        rfl
      · split
        · rename_i hall
          refine ⟨formed_empty _, fun x => ?_⟩
          rw [lookup_empty, ← found, lookup_all_empty hall]
        · rename_i hsome
          refine ⟨⟨by rw [List.length_set, hlength], children_updated hformed hremoves.formed _, ?_⟩, found⟩
          simpa using hsome

end Edits

section Whole

variable {index : Index α} {key : UInt64}

def held (index : Index α) (key : UInt64) : Option α := lookup nibbles index key

/-- A tree as the operations leave it: no key that it holds is out of reach. -/
def Sound (index : Index α) : Prop := Formed nibbles index

theorem sound_empty : Sound (.empty : Index α) := formed_empty nibbles

@[simp] theorem held_empty (key : UInt64) : held (.empty : Index α) key = none := lookup_empty nibbles key

theorem get_held (h : Sound index) (key : UInt64) :
    (get index key : Except (Failure ε) _) = .ok (held index key) := get_from h key

theorem set_sound (h : Sound index) (key : UInt64) (next : α) :
    ∃ index', (set index key next : Except (Failure ε) _) = .ok index' ∧ Sound index' ∧
      ∀ x, held index' x = if x = key then some next else held index x := by
  obtain ⟨index', hrun, hsets⟩ := set_from h (key_bounded key)
  exact ⟨index', hrun, hsets.formed, hsets.found⟩

theorem remove_sound (h : Sound index) (key : UInt64) :
    ∃ index', (remove index key : Except (Failure ε) _) = .ok index' ∧ Sound index' ∧
      ∀ x, held index' x = if x = key then none else held index x := by
  obtain ⟨index', hrun, hremoves⟩ := remove_from h key
  exact ⟨index', hrun, hremoves.formed, hremoves.found⟩

end Whole

end Index

section Histories

variable {α : Type}

inductive Edit (α : Type) where
  | set (key : UInt64) (value : α)
  | remove (key : UInt64)

def perform (index : Index α) : Edit α → Except (Failure Empty) (Index α)
  | .set key value => index.set key value
  | .remove key => index.remove key

def Edit.apply (key : UInt64) (value : Option α) : Edit α → Option α
  | .set k next => if key = k then some next else value
  | .remove k => if key = k then none else value

def lastSet (history : List (Edit α)) (key : UInt64) : Option α := history.foldl (Edit.apply key) none

/-- A version of the index, and the edits that led to it. -/
structure Version (α : Type) where
  history : List (Edit α)
  index : Index α

/-- An edit of any version so far makes a new one; the others stay. -/
def extend (versions : List (Version α)) (command : ℕ × Edit α) :
    Except (Failure Empty) (List (Version α)) :=
  match versions[command.1]? with
  | none => .ok versions
  | some version => do
    return versions ++ [⟨version.history ++ [command.2], ← perform version.index command.2⟩]

/-- The versions that a list of edits, each of the version it names, makes out of the empty index. -/
def versions (commands : List (ℕ × Edit α)) : Except (Failure Empty) (List (Version α)) :=
  commands.foldlM extend [⟨[], .empty⟩]

structure Version.Holds (version : Version α) : Prop where
  sound : version.index.Sound
  held : ∀ key, version.index.held key = lastSet version.history key

theorem perform_sound {index : Index α} (h : index.Sound) (edit : Edit α) :
    ∃ index', perform index edit = .ok index' ∧ index'.Sound ∧
      ∀ key, index'.held key = edit.apply key (index.held key) := by
  cases edit with
  | set key value => exact Index.set_sound h key value
  | remove key => exact Index.remove_sound h key

theorem version_performed {version : Version α} (h : version.Holds) (edit : Edit α) :
    ∃ index', perform version.index edit = .ok index' ∧
      Version.Holds ⟨version.history ++ [edit], index'⟩ := by
  obtain ⟨index', hrun, hsound, hheld⟩ := perform_sound h.sound edit
  refine ⟨index', hrun, hsound, fun key => ?_⟩
  rw [hheld, h.held, lastSet, lastSet, List.foldl_append]
  rfl

theorem extend_holds {vs : List (Version α)} (h : ∀ version ∈ vs, version.Holds) (command : ℕ × Edit α) :
    ∃ vs', extend vs command = .ok vs' ∧ vs <+: vs' ∧ ∀ version ∈ vs', version.Holds := by
  unfold extend
  cases hversion : vs[command.1]? with
  | none => exact ⟨vs, rfl, List.prefix_refl vs, h⟩
  | some version =>
    obtain ⟨index', hrun, hholds⟩ := version_performed (h version (List.mem_of_getElem? hversion)) command.2
    refine ⟨vs ++ [⟨version.history ++ [command.2], index'⟩], ?_, List.prefix_append vs _, ?_⟩
    · dsimp only
      rw [hrun]
      rfl
    · intro v hv
      rcases List.mem_append.mp hv with hv | hv
      · exact h v hv
      · rw [List.mem_singleton.mp hv]
        exact hholds

theorem versions_hold {vs : List (Version α)} (h : ∀ version ∈ vs, version.Holds)
    (commands : List (ℕ × Edit α)) :
    ∃ vs', commands.foldlM extend vs = .ok vs' ∧ vs <+: vs' ∧ ∀ version ∈ vs', version.Holds := by
  induction commands generalizing vs with
  | nil => exact ⟨vs, rfl, List.prefix_refl vs, h⟩
  | cons command rest ih =>
    obtain ⟨ws, hone, hkept, hholds⟩ := extend_holds h command
    obtain ⟨vs', hrest, hkept', hholds'⟩ := ih hholds
    refine ⟨vs', ?_, hkept.trans hkept', hholds'⟩
    rw [List.foldlM_cons, hone]
    exact hrest

/-- Whatever versions are edited in whatever order, no operation crashes or runs out of levels; every
version is well formed and answers, under every key, what was last set in its own history; versions of
the same contents answer the same; and what is done later leaves the versions that are there. -/
theorem index_is_map (commands : List (ℕ × Edit α)) : ∃ vs, versions commands = .ok vs ∧
    (∀ v ∈ vs, v.index.Sound ∧ ∀ key, (v.index.get key : Except (Failure Empty) _) =
      .ok (lastSet v.history key)) ∧
    (∀ v ∈ vs, ∀ edit, ∃ index', perform v.index edit = .ok index') ∧
    (∀ v ∈ vs, ∀ w ∈ vs, (∀ key, lastSet v.history key = lastSet w.history key) → ∀ key,
      (v.index.get key : Except (Failure Empty) _) = w.index.get key) ∧
    ∀ more, ∃ vs', versions (commands ++ more) = .ok vs' ∧ vs <+: vs' := by
  have start : ∀ version ∈ [(⟨[], .empty⟩ : Version α)], version.Holds := by
    intro version hversion
    rw [List.mem_singleton.mp hversion]
    exact ⟨Index.sound_empty, fun key => Index.held_empty key⟩
  obtain ⟨vs, hrun, -, holds⟩ := versions_hold start commands
  have answers (v) (hv : v ∈ vs) (key : UInt64) :
      (v.index.get key : Except (Failure Empty) _) = .ok (lastSet v.history key) := by
    rw [Index.get_held (holds v hv).sound, (holds v hv).held]
  refine ⟨vs, hrun, fun v hv => ⟨(holds v hv).sound, answers v hv⟩, fun v hv edit => ?_,
    fun v hv w hw same key => ?_, fun more => ?_⟩
  · obtain ⟨index', hperform, -⟩ := version_performed (holds v hv) edit
    exact ⟨index', hperform⟩
  · rw [answers v hv, answers w hw, same]
  · obtain ⟨vs', hmore, hkept, -⟩ := versions_hold holds more
    refine ⟨vs', ?_, hkept⟩
    rw [versions, List.foldlM_append, hrun]
    exact hmore

/-- Keys that differ in their last nibble only are told apart in the sixteenth level. -/
example : (do
    let index ← (Index.empty : Index ℕ).set 0 1
    let index ← index.set 0x1000000000000000 2
    let index ← index.remove 0
    return (← index.get 0, ← index.get 0x1000000000000000) : Except (Failure Empty) _) =
      .ok (none, some 2) := by decide +kernel

end Histories

end RadixIndices
