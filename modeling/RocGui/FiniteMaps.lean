import Mathlib.Data.Finmap
import Mathlib.Data.List.Sort

/-! Hash maps whose iteration order is unspecified: two maps with the same lookups
are equal, and a program that iterates is given one of the possible orders. -/
namespace FiniteMaps

def FiniteMap (K V : Type*) := Finmap (fun _ : K => V)

namespace FiniteMap

variable {K V : Type*} [DecidableEq K]

instance [DecidableEq V] : DecidableEq (FiniteMap K V) := inferInstanceAs (DecidableEq (Finmap _))

def empty : FiniteMap K V := (∅ : Finmap fun _ : K => V)

instance : EmptyCollection (FiniteMap K V) := ⟨empty⟩
instance : Inhabited (FiniteMap K V) := ⟨empty⟩

def get (m : FiniteMap K V) (k : K) : Option V := Finmap.lookup k m
def set (m : FiniteMap K V) (k : K) (v : V) : FiniteMap K V :=
  Finmap.insert (β := fun _ : K => V) k v m
def remove (m : FiniteMap K V) (k : K) : FiniteMap K V := Finmap.erase k m
def keys (m : FiniteMap K V) : Finset K := Finmap.keys m
def size (m : FiniteMap K V) : ℕ := m.keys.card

@[ext]
theorem ext {m n : FiniteMap K V} (h : ∀ k, m.get k = n.get k) : m = n := Finmap.ext_lookup h

@[simp] theorem get_empty (k : K) : (∅ : FiniteMap K V).get k = none := Finmap.lookup_empty k

theorem get_set (m : FiniteMap K V) (k : K) (v : V) (x : K) :
    (m.set k v).get x = if x = k then some v else m.get x := by
  by_cases h : x = k
  · subst h
    rw [if_pos rfl]
    exact Finmap.lookup_insert m
  · rw [if_neg h]
    exact Finmap.lookup_insert_of_ne m h

theorem get_remove (m : FiniteMap K V) (k x : K) :
    (m.remove k).get x = if x = k then none else m.get x := by
  by_cases h : x = k
  · subst h
    rw [if_pos rfl]
    exact Finmap.lookup_erase x m
  · rw [if_neg h]
    exact Finmap.lookup_erase_ne h

@[simp] theorem get_set_self (m : FiniteMap K V) (k : K) (v : V) : (m.set k v).get k = some v := by
  simp [get_set]

theorem get_set_ne (m : FiniteMap K V) {k x : K} (v : V) (h : x ≠ k) :
    (m.set k v).get x = m.get x := by simp [get_set, h]

@[simp] theorem get_remove_self (m : FiniteMap K V) (k : K) : (m.remove k).get k = none := by
  simp [get_remove]

theorem get_remove_ne (m : FiniteMap K V) {k x : K} (h : x ≠ k) :
    (m.remove k).get x = m.get x := by simp [get_remove, h]

theorem mem_keys {m : FiniteMap K V} {k : K} : k ∈ m.keys ↔ (m.get k).isSome :=
  Finmap.mem_keys.trans Finmap.lookup_isSome.symm

theorem size_eq_length {m : FiniteMap K V} {ks : List K} (distinct : ks.Nodup)
    (listed : ∀ k, k ∈ ks ↔ (m.get k).isSome) : m.size = ks.length := by
  rw [size, ← List.toFinset_card_of_nodup distinct]
  congr 1
  ext k
  rw [mem_keys, List.mem_toFinset, listed]

/-- Every value is changed by `f`, or dropped. -/
def edit (m : FiniteMap K V) (f : K → V → Option V) : FiniteMap K V :=
  Finmap.keysLookupEquiv.symm
    ⟨(m.keys.filter fun k => ((m.get k).bind (f k)).isSome, fun k => (m.get k).bind (f k)),
      fun k => by cases h : m.get k <;> simp [mem_keys, h]⟩

theorem get_edit (m : FiniteMap K V) (f : K → V → Option V) (k : K) :
    (m.edit f).get k = (m.get k).bind (f k) :=
  Finmap.keysLookupEquiv_symm_apply_lookup _ k

/-- `values_mut`. -/
def mapValues (m : FiniteMap K V) (f : V → V) : FiniteMap K V := m.edit fun _ v => some (f v)

def retain (m : FiniteMap K V) (p : K → V → Bool) : FiniteMap K V :=
  m.edit fun k v => if p k v then some v else none

@[simp] theorem get_mapValues (m : FiniteMap K V) (f : V → V) (k : K) :
    (m.mapValues f).get k = (m.get k).map f := by
  rw [mapValues, get_edit]
  cases m.get k <;> rfl

theorem get_retain {m : FiniteMap K V} {p : K → V → Bool} {k : K} {v : V} :
    (m.retain p).get k = some v ↔ m.get k = some v ∧ p k v = true := by
  rw [retain, get_edit]
  cases m.get k with
  | none => simp
  | some w =>
    rw [Option.bind_some]
    by_cases hp : p k w
    · rw [if_pos hp]
      constructor
      · intro h
        obtain rfl := Option.some.inj h
        exact ⟨rfl, hp⟩
      · exact And.left
    · rw [if_neg hp]
      constructor
      · intro h
        cases h
      · rintro ⟨h, hv⟩
        obtain rfl := Option.some.inj h
        exact absurd hv hp

end FiniteMap

/-- An order in which a map may be iterated. -/
structure Enumeration (K V : Type*) [DecidableEq K] where
  entries : FiniteMap K V → List (K × V)
  distinct : ∀ m, ((entries m).map Prod.fst).Nodup
  listed : ∀ m k v, (k, v) ∈ entries m ↔ m.get k = some v

section Sorted

variable {K V : Type*} [LinearOrder K]

/-- The elements of a set in increasing order. -/
def ascending (s : Finset K) : List K :=
  Quot.liftOn s.val (List.insertionSort (· ≤ ·)) fun _ _ h =>
    ((List.perm_insertionSort _ _).trans (h.trans (List.perm_insertionSort _ _).symm)).eq_of_pairwise'
      (List.pairwise_insertionSort _ _) (List.pairwise_insertionSort _ _)

theorem ascending_coe (s : Finset K) : (ascending s : Multiset K) = s.val := by
  unfold ascending
  induction s.val using Quot.inductionOn with
  | h l => exact Quot.sound (List.perm_insertionSort _ l)

theorem mem_ascending {s : Finset K} {k : K} : k ∈ ascending s ↔ k ∈ s := by
  rw [← Finset.mem_val, ← ascending_coe, Multiset.mem_coe]

theorem ascending_nodup (s : Finset K) : (ascending s).Nodup := by
  rw [← Multiset.coe_nodup, ascending_coe]
  exact s.nodup

/-- Iteration by increasing key. -/
def Enumeration.sorted : Enumeration K V where
  entries m := (ascending m.keys).filterMap fun k => (m.get k).map fun v => (k, v)
  distinct m := by
    have keys (ks : List K) : (ks.filterMap fun k => (m.get k).map fun v => (k, v)).map Prod.fst =
        ks.filter fun k => (m.get k).isSome := by
      induction ks with
      | nil => rfl
      | cons k ks ih => cases h : m.get k <;> simp_all
    rw [keys]
    exact (ascending_nodup m.keys).filter _
  listed m k v := by
    simp only [List.mem_filterMap, mem_ascending, FiniteMap.mem_keys]
    constructor
    · rintro ⟨q, -, h⟩
      obtain ⟨w, hw, heq⟩ := Option.map_eq_some_iff.mp h
      cases heq
      exact hw
    · intro h
      exact ⟨k, by simp [h], by simp [h]⟩

end Sorted

end FiniteMaps
