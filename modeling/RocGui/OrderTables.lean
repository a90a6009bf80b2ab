import RocGui.FiniteMaps
import RocGui.Methods

/-! The tables of the order tree: cells in chunks of 32, the chunks in a persistent index. -/
namespace OrderTables

open FiniteMaps Methods

variable {ε V : Type}

def orCrash (message : String) : Option V → Except (Failure ε) V
  | some v => .ok v
  | none => .error (.panic message)

theorem or_crash_ok {message : String} {o : Option V} {v : V} :
    (orCrash message o : Except (Failure ε) V) = .ok v ↔ o = some v := by
  cases o <;> simp [orCrash]

abbrev RowsOrderCell (V : Type) := Option V

abbrev RowsOrderTable (V : Type) := FiniteMap ℕ (List (RowsOrderCell V))

def chunkSize : ℕ := 32

structure TableLocation where
  chunk : ℕ
  offset : ℕ

def tableLocation (key : ℕ) : Except (Failure ε) TableLocation :=
  if key = 0 then .error (.panic "Rows order table key must be nonzero")
  else .ok ⟨(key - 1) / chunkSize, (key - 1) % chunkSize⟩

def tableGet (table : RowsOrderTable V) (key : ℕ) : Except (Failure ε) (Option V) := do
  let location ← tableLocation key
  pure ((table.get location.chunk).bind fun chunk => (chunk[location.offset]?).join)

/-- `List.set`, which refuses an index past the end. -/
def setAt (values : List V) (index : ℕ) (value : V) : Option (List V) :=
  if index < values.length then some (values.set index value) else none

def padded (chunk : List (RowsOrderCell V)) (length : ℕ) : List (RowsOrderCell V) :=
  chunk ++ List.replicate (length - chunk.length) none

def tableSet (table : RowsOrderTable V) (key : ℕ) (value : V) :
    Except (Failure ε) (RowsOrderTable V) := do
  let location ← tableLocation key
  let chunk := padded ((table.get location.chunk).getD []) (location.offset + 1)
  let updated ← orCrash "Rows order table offset was invalid"
    (setAt chunk location.offset (some value))
  pure (table.set location.chunk updated)

def tableRemove (table : RowsOrderTable V) (key : ℕ) : Except (Failure ε) (RowsOrderTable V) := do
  let location ← tableLocation key
  match table.get location.chunk with
  | none => pure table
  | some chunk =>
    match setAt chunk location.offset none with
    | none => pure table
    | some updated => pure (table.set location.chunk updated)

/-- What a table holds under a key; no key is zero. -/
def lookup (table : RowsOrderTable V) (key : ℕ) : Option V :=
  if key = 0 then none
  else (table.get ((key - 1) / chunkSize)).bind fun chunk => (chunk[(key - 1) % chunkSize]?).join

@[simp] theorem lookup_empty (key : ℕ) : lookup (∅ : RowsOrderTable V) key = none := by
  simp [lookup]

variable {table : RowsOrderTable V} {key : ℕ} {value : V}

theorem location_ok (h : 0 < key) : (tableLocation key : Except (Failure ε) TableLocation) =
    .ok ⟨(key - 1) / chunkSize, (key - 1) % chunkSize⟩ := if_neg (by omega)

theorem get_ok (h : 0 < key) :
    (tableGet table key : Except (Failure ε) (Option V)) = .ok (lookup table key) := by
  rw [tableGet, location_ok h, lookup, if_neg (by omega)]
  rfl

theorem place_inj {x : ℕ} (h : 0 < key) (hx : 0 < x)
    (chunk : (x - 1) / chunkSize = (key - 1) / chunkSize)
    (offset : (x - 1) % chunkSize = (key - 1) % chunkSize) : x = key := by
  have hx' := Nat.div_add_mod (x - 1) chunkSize
  have hk := Nat.div_add_mod (key - 1) chunkSize
  rw [chunk, offset] at hx'
  omega

theorem lookup_set_chunk {chunk : List (RowsOrderCell V)} (cell : RowsOrderCell V) (h : 0 < key)
    (at_key : (chunk[(key - 1) % chunkSize]?).join = cell)
    (others : ∀ i, i ≠ (key - 1) % chunkSize → (chunk[i]?).join =
      ((table.get ((key - 1) / chunkSize)).bind fun cells => (cells[i]?).join)) (x : ℕ) :
    lookup (table.set ((key - 1) / chunkSize) chunk) x = if x = key then cell else lookup table x := by
  by_cases h0 : x = 0
  · rw [if_neg (by omega)]
    simp [lookup, h0]
  simp only [lookup, if_neg h0, FiniteMap.get_set]
  by_cases hc : (x - 1) / chunkSize = (key - 1) / chunkSize
  · rw [if_pos hc, Option.bind_some]
    by_cases ho : (x - 1) % chunkSize = (key - 1) % chunkSize
    · rw [if_pos (place_inj h (by omega) hc ho), ho, at_key]
    · rw [if_neg fun heq => ho (by rw [heq]), others _ ho, hc]
  · rw [if_neg hc, if_neg fun heq => hc (by rw [heq])]

theorem padded_get (chunk : List (RowsOrderCell V)) (length i : ℕ) :
    ((padded chunk length)[i]?).join = (chunk[i]?).join := by
  rw [padded, List.getElem?_append]
  split
  · rfl
  · rename_i hi
    rw [List.getElem?_eq_none (by omega : chunk.length ≤ i), List.getElem?_replicate]
    split <;> rfl

theorem set_ok (table : RowsOrderTable V) (value : V) (h : 0 < key) : ∃ t, (tableSet table key value : Except (Failure ε) _) = .ok t ∧
    ∀ x, lookup t x = if x = key then some value else lookup table x := by
  have long : (key - 1) % chunkSize < (padded ((table.get ((key - 1) / chunkSize)).getD [])
      ((key - 1) % chunkSize + 1)).length := by
    rw [padded, List.length_append, List.length_replicate]
    omega
  refine ⟨_, by rw [tableSet, location_ok h]; simp only [setAt, bind, Except.bind, if_pos long]; rfl, ?_⟩
  refine lookup_set_chunk _ h (by simp [long]) fun i hi => ?_
  rw [List.getElem?_set_ne (Ne.symm hi), padded_get]
  cases table.get ((key - 1) / chunkSize) with
  | none => simp
  | some chunk => rfl

theorem remove_ok (table : RowsOrderTable V) (h : 0 < key) : ∃ t, (tableRemove table key : Except (Failure ε) _) = .ok t ∧
    ∀ x, lookup t x = if x = key then none else lookup table x := by
  have absent (hk : lookup table key = none) (x : ℕ) :
      lookup table x = if x = key then none else lookup table x := by
    split
    · rename_i hx
      rw [hx, hk]
    · rfl
  rw [tableRemove, location_ok h]
  simp only [bind, Except.bind]
  have at_key : lookup table key = (table.get ((key - 1) / chunkSize)).bind fun chunk =>
      (chunk[(key - 1) % chunkSize]?).join := if_neg (by omega)
  cases hc : table.get ((key - 1) / chunkSize) with
  | none =>
    refine ⟨table, rfl, absent ?_⟩
    rw [at_key, hc]
    rfl
  | some chunk =>
    by_cases hlong : (key - 1) % chunkSize < chunk.length
    · refine ⟨_, by simp only [setAt, if_pos hlong]; rfl, ?_⟩
      refine lookup_set_chunk _ h (by simp [hlong]) fun i hi => ?_
      rw [List.getElem?_set_ne (Ne.symm hi), hc]
      rfl
    · refine ⟨table, by simp only [setAt, if_neg hlong]; rfl, absent ?_⟩
      rw [at_key, hc, Option.bind_some, List.getElem?_eq_none (by omega)]
      rfl

end OrderTables
