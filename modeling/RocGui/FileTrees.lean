import Mathlib.Data.List.Basic
import Mathlib.Data.Nat.Notation

/-! Looking up a path in a tree of files at one moment: folders name nodes, and a link stands
for the node it leads to unless the lookup stops at it. -/
namespace FileTrees

inductive NodeType where
  | file | directory | link | other
  deriving DecidableEq, Repr

structure Tree (I N : Type) where
  types : I → NodeType
  /-- The names in a folder; those of its parent and of itself may be among them. -/
  entries : I → N → Option I
  /-- Where a link leads, past the links on its way. -/
  follow : I → Option I

namespace Tree

variable {I N : Type} (t : Tree I N)

def enter (folder : I) (name : N) : Option I :=
  if t.types folder = .directory then t.entries folder name else none

def settle (node : I) : Option I := if t.types node = .link then t.follow node else some node

def walk (node : I) : List N → Option I
  | [] => some node
  | name :: rest => ((t.enter node name).bind t.settle).bind fun next => walk next rest

/-- The last name is looked up without following it. -/
def look (node : I) (names : List N) : Option I :=
  match names.getLast? with
  | none => some node
  | some last => (t.walk node names.dropLast).bind fun folder => t.enter folder last

variable {t} {node : I} {a b : List N}

theorem walk_append : t.walk node (a ++ b) = (t.walk node a).bind fun next => t.walk next b := by
  induction a generalizing node with
  | nil => rfl
  | cons name rest ih =>
    rw [List.cons_append, walk, walk]
    cases (t.enter node name).bind t.settle with
    | none => rfl
    | some next => exact ih

theorem look_concat {last : N} : t.look node (a ++ [last]) =
    (t.walk node a).bind fun folder => t.enter folder last := by
  rw [look, List.getLast?_concat, List.dropLast_concat]

theorem walk_of_look {i : I} (h : t.look node a = some i) (hlink : t.types i ≠ .link) :
    t.walk node a = some i := by
  cases List.eq_nil_or_concat a with
  | inl hnil =>
    subst hnil
    exact h
  | inr hconcat =>
    obtain ⟨init, last, rfl⟩ := hconcat
    rw [List.concat_eq_append] at h ⊢
    rw [look_concat] at h
    obtain ⟨folder, hfolder, henter⟩ := Option.bind_eq_some_iff.mp h
    rw [walk_append, hfolder, Option.bind_some, walk, henter, Option.bind_some, settle, if_neg hlink]
    rfl

end Tree

end FileTrees
