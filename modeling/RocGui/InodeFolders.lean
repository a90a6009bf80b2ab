import Mathlib.Logic.Function.Basic
import Mathlib.Data.Nat.Notation

/-! A folder of files: names refer to inodes, and an open file is an inode that may have
lost its name. Renaming moves a name; what is written through a handle stays with the inode. -/
namespace InodeFolders

structure Folder (N C : Type) where
  entries : N → Option ℕ
  contents : ℕ → List C
  /-- The inodes below have been used. -/
  fresh : ℕ

variable {N C : Type}

namespace Folder

variable (f : Folder N C)

def read (n : N) : Option (List C) := (f.entries n).map f.contents

def truncate (i : ℕ) : Folder N C := { f with contents := Function.update f.contents i [] }

def overwrite [Inhabited C] (old : List C) (offset : ℕ) (bytes : List C) : List C :=
  (old ++ List.replicate (offset - old.length) default).take offset ++ bytes ++
    old.drop (offset + bytes.length)

def write [Inhabited C] (i : ℕ) (offset : ℕ) (bytes : List C) : Folder N C :=
  { f with contents := Function.update f.contents i (overwrite (f.contents i) offset bytes) }

variable [DecidableEq N]

/-- A new file under a name that is free, or has just lost its file. -/
def allocate (n : N) : Folder N C :=
  { f with
    entries := Function.update f.entries n (some f.fresh)
    contents := Function.update f.contents f.fresh []
    fresh := f.fresh + 1 }

def create (n : N) : ℕ × Folder N C :=
  match f.entries n with
  | some i => (i, f.truncate i)
  | none => (f.fresh, f.allocate n)

def createNew (n : N) : Option (ℕ × Folder N C) :=
  match f.entries n with
  | some _ => none
  | none => some (f.fresh, f.allocate n)

def remove (n : N) : Option (Folder N C) :=
  match f.entries n with
  | some _ => some { f with entries := Function.update f.entries n none }
  | none => none

/-- The name moves with its file, in place of what the target named. -/
def rename (source target : N) : Option (Folder N C) :=
  match f.entries source with
  | some i => some { f with
      entries := Function.update (Function.update f.entries source none) target (some i) }
  | none => none

end Folder

/-- Every name refers to an inode in use, and no two names to the same one. -/
structure Folder.Sound (f : Folder N C) : Prop where
  used : ∀ n i, f.entries n = some i → i < f.fresh
  single : ∀ m n i, f.entries m = some i → f.entries n = some i → m = n

section Contents

variable {f : Folder N C} {n : N} {i j : ℕ} {bytes : List C}

theorem sound_truncate (h : f.Sound) : (f.truncate i).Sound := ⟨h.used, h.single⟩

theorem sound_write [Inhabited C] {offset : ℕ} (h : f.Sound) : (f.write i offset bytes).Sound :=
  ⟨h.used, h.single⟩

theorem read_contents (h : f.entries n = some i) : f.read n = some (f.contents i) := by
  rw [Folder.read, h, Option.map_some]

theorem read_truncate (hne : f.entries n ≠ some i) : (f.truncate i).read n = f.read n := by
  change (f.entries n).map (Function.update f.contents i []) = (f.entries n).map f.contents
  cases h : f.entries n with
  | none => rfl
  | some j =>
    have : j ≠ i := fun heq => hne (heq ▸ h)
    simp [Function.update_of_ne this]

theorem read_write [Inhabited C] {offset : ℕ} (hne : f.entries n ≠ some i) :
    (f.write i offset bytes).read n = f.read n := by
  change (f.entries n).map (Function.update f.contents i _) = (f.entries n).map f.contents
  cases h : f.entries n with
  | none => rfl
  | some j =>
    have : j ≠ i := fun heq => hne (heq ▸ h)
    simp [Function.update_of_ne this]

theorem contents_write_self [Inhabited C] {offset : ℕ} : (f.write i offset bytes).contents i =
    Folder.overwrite (f.contents i) offset bytes := Function.update_self _ _ _

theorem contents_write_ne [Inhabited C] {offset : ℕ} (hne : j ≠ i) :
    (f.write i offset bytes).contents j = f.contents j := Function.update_of_ne hne _ _

theorem overwrite_end [Inhabited C] (old bytes : List C) :
    Folder.overwrite old old.length bytes = old ++ bytes := by
  rw [Folder.overwrite, List.drop_eq_nil_of_le (by omega)]
  simp

end Contents

section Names

variable [DecidableEq N] {f : Folder N C} {m n source target : N} {i : ℕ}

theorem sound_allocate (h : f.Sound) : (f.allocate n).Sound where
  used m i hm := by
    change Function.update f.entries n (some f.fresh) m = some i at hm
    change i < f.fresh + 1
    by_cases heq : m = n
    · subst heq
      rw [Function.update_self] at hm
      obtain rfl := Option.some.inj hm
      omega
    · rw [Function.update_of_ne heq] at hm
      have := h.used m i hm
      omega
  single a b i ha hb := by
    change Function.update f.entries n (some f.fresh) a = some i at ha
    change Function.update f.entries n (some f.fresh) b = some i at hb
    by_cases hna : a = n
    · by_cases hnb : b = n
      · rw [hna, hnb]
      · subst hna
        rw [Function.update_self] at ha
        rw [Function.update_of_ne hnb] at hb
        obtain rfl := Option.some.inj ha
        exact absurd (h.used b _ hb) (Nat.lt_irrefl _)
    · by_cases hnb : b = n
      · subst hnb
        rw [Function.update_self] at hb
        rw [Function.update_of_ne hna] at ha
        obtain rfl := Option.some.inj hb
        exact absurd (h.used a _ ha) (Nat.lt_irrefl _)
      · rw [Function.update_of_ne hna] at ha
        rw [Function.update_of_ne hnb] at hb
        exact h.single a b i ha hb

theorem sound_remove {f' : Folder N C} (h : f.Sound) (hf : f.remove n = some f') : f'.Sound := by
  unfold Folder.remove at hf
  split at hf
  · obtain rfl := Option.some.inj hf
    have old {m : N} {i : ℕ} (hm : Function.update f.entries n none m = some i) :
        f.entries m = some i := by
      by_cases heq : m = n
      · rw [heq, Function.update_self] at hm
        cases hm
      · rwa [Function.update_of_ne heq] at hm
    exact ⟨fun m i hm => h.used m i (old hm), fun a b i ha hb => h.single a b i (old ha) (old hb)⟩
  · cases hf

theorem sound_rename {f' : Folder N C} (h : f.Sound) (hf : f.rename source target = some f') :
    f'.Sound := by
  unfold Folder.rename at hf
  split at hf
  · rename_i k hsource
    obtain rfl := Option.some.inj hf
    -- a name other than the target keeps its inode, which is not the moved one
    have old {m : N} {i : ℕ} (hne : m ≠ target)
        (hm : Function.update (Function.update f.entries source none) target (some k) m = some i) :
        f.entries m = some i ∧ m ≠ source := by
      rw [Function.update_of_ne hne] at hm
      by_cases heq : m = source
      · rw [heq, Function.update_self] at hm
        cases hm
      · rw [Function.update_of_ne heq] at hm
        exact ⟨hm, heq⟩
    have moved {i : ℕ}
        (hm : Function.update (Function.update f.entries source none) target (some k) target = some i) :
        f.entries source = some i := by
      rwa [Function.update_self, ← hsource] at hm
    refine ⟨fun m i hm => ?_, fun a b i ha hb => ?_⟩
    · by_cases heq : m = target
      · exact h.used source i (moved (heq ▸ hm))
      · exact h.used m i (old heq hm).1
    · by_cases ha' : a = target
      · by_cases hb' : b = target
        · rw [ha', hb']
        · subst ha'
          exact absurd (h.single _ _ _ (moved ha) (old hb' hb).1).symm (old hb' hb).2
      · by_cases hb' : b = target
        · subst hb'
          exact absurd (h.single _ _ _ (moved hb) (old ha' ha).1).symm (old ha' ha).2
        · exact h.single a b i (old ha' ha).1 (old hb' hb).1
  · cases hf

theorem read_allocate (h : f.Sound) (hne : m ≠ n) : (f.allocate n).read m = f.read m := by
  change (Function.update f.entries n (some f.fresh) m).map (Function.update f.contents f.fresh []) =
    (f.entries m).map f.contents
  rw [Function.update_of_ne hne]
  cases hm : f.entries m with
  | none => rfl
  | some j =>
    have : j ≠ f.fresh := Nat.ne_of_lt (h.used m j hm)
    simp [Function.update_of_ne this]

theorem read_rename_target {f' : Folder N C} (hf : f.rename source target = some f') :
    f'.read target = f.read source := by
  unfold Folder.rename at hf
  split at hf
  · rename_i i hsource
    obtain rfl := Option.some.inj hf
    rw [read_contents hsource]
    exact read_contents (Function.update_self _ _ _)
  · cases hf

theorem read_rename_ne {f' : Folder N C} (hf : f.rename source target = some f') (hs : n ≠ source)
    (ht : n ≠ target) : f'.read n = f.read n := by
  unfold Folder.rename at hf
  split at hf
  · obtain rfl := Option.some.inj hf
    change (Function.update (Function.update f.entries source none) target _ n).map f.contents = _
    rw [Function.update_of_ne ht, Function.update_of_ne hs]
    rfl
  · cases hf

theorem read_remove_ne {f' : Folder N C} (hf : f.remove n = some f') (hne : m ≠ n) :
    f'.read m = f.read m := by
  unfold Folder.remove at hf
  split at hf
  · obtain rfl := Option.some.inj hf
    change (Function.update f.entries n none m).map f.contents = _
    rw [Function.update_of_ne hne]
    rfl
  · cases hf

theorem rename_cases {f' : Folder N C} (hf : f.rename source target = some f') :
    f'.contents = f.contents ∧ f'.fresh = f.fresh ∧ f'.entries target = f.entries source ∧
      (source ≠ target → f'.entries source = none) ∧
        ∀ n, n ≠ source → n ≠ target → f'.entries n = f.entries n := by
  unfold Folder.rename at hf
  split at hf
  · rename_i i hsource
    obtain rfl := Option.some.inj hf
    refine ⟨rfl, rfl, (Function.update_self _ _ _).trans hsource.symm, fun hne => ?_, fun n hs ht => ?_⟩
    · exact (Function.update_of_ne hne _ _).trans (Function.update_self _ _ _)
    · exact (Function.update_of_ne ht _ _).trans (Function.update_of_ne hs _ _)
  · cases hf

theorem remove_cases {f' : Folder N C} (hf : f.remove n = some f') :
    f'.contents = f.contents ∧ f'.fresh = f.fresh ∧ f'.entries n = none ∧
      ∀ m, m ≠ n → f'.entries m = f.entries m := by
  unfold Folder.remove at hf
  split at hf
  · obtain rfl := Option.some.inj hf
    exact ⟨rfl, rfl, Function.update_self _ _ _, fun m hm => Function.update_of_ne hm _ _⟩
  · cases hf

theorem create_cases (h : f.Sound) : (f.create n).2.Sound ∧
    (f.create n).2.entries n = some (f.create n).1 ∧ (f.create n).2.contents (f.create n).1 = [] ∧
      ∀ m, m ≠ n → (f.create n).2.read m = f.read m := by
  unfold Folder.create
  cases hn : f.entries n with
  | none =>
    refine ⟨sound_allocate h, Function.update_self _ _ _, Function.update_self _ _ _, fun m hm => ?_⟩
    exact read_allocate h hm
  | some i =>
    refine ⟨sound_truncate h, hn, Function.update_self _ _ _, fun m hm => ?_⟩
    exact read_truncate fun hi => hm (h.single m n i hi hn)

end Names

end InodeFolders
