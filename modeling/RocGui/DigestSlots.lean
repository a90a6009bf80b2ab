import Mathlib.Data.Nat.Digits.Defs
import RocGui.RadixIndices

/-! The slots of a keyed collection: a key is a digest of 32 bytes, and its four limbs lead through
four persistent indices, one inside the other. -/
namespace DigestSlots

open Methods OrderTables RadixIndices

structure Key where
  bytes : List UInt8
  whole : bytes.length = 32
  deriving DecidableEq

structure Entry where
  key : Key
  slot : UInt64
  deriving DecidableEq

abbrev KeySlots := Index (Index (Index (Index Entry)))

inductive Missing where
  | missing
  deriving DecidableEq

variable {ε α : Type}

section Definitions

def checked (n : ℕ) : Except (Failure ε) UInt64 :=
  if h : n < 2 ^ 64 then .ok (UInt64.ofNatLT n h) else .error (.panic "integer overflowed")

def add (a b : UInt64) : Except (Failure ε) UInt64 := checked (a.toNat + b.toNat)

def mul (a b : UInt64) : Except (Failure ε) UInt64 := checked (a.toNat * b.toNat)

structure Running where
  value : UInt64
  factor : UInt64
  offset : UInt64

def nextFactor (factor : UInt64) (byteIndex : ℕ) : Except (Failure ε) UInt64 :=
  if byteIndex < 7 then mul factor 256 else .ok factor

def readByte (key : Key) (s : Running) (byteIndex : ℕ) : Except (Failure ε) Running := do
  let byte ← orCrash "Key digest was not 32 bytes" key.bytes[s.offset.toNat]?
  let value ← add s.value (← mul byte.toUInt64 s.factor)
  let factor ← nextFactor s.factor byteIndex
  let offset ← add s.offset 1
  return ⟨value, factor, offset⟩

def keySlotLimb (key : Key) (limb : UInt64) : Except (Failure ε) UInt64 := do
  let offset ← mul limb 8
  let last ← [0, 1, 2, 3, 4, 5, 6, 7].foldlM (readByte key) ⟨0, 1, offset⟩
  return last.value

def found : Option α → Except (Failure Missing) α
  | some a => .ok a
  | none => .error (.error .missing)

def keySlotsGet (slots : KeySlots) (key : Key) : Except (Failure Missing) UInt64 := do
  let one ← found (← slots.get (← keySlotLimb key 0))
  let two ← found (← one.get (← keySlotLimb key 1))
  let three ← found (← two.get (← keySlotLimb key 2))
  let entry ← found (← three.get (← keySlotLimb key 3))
  if entry.key = key then return entry.slot else .error (.error .missing)

def keySlotsSet (slots : KeySlots) (key : Key) (slot : UInt64) : Except (Failure Missing) KeySlots := do
  let oneKey ← keySlotLimb key 0
  let twoKey ← keySlotLimb key 1
  let threeKey ← keySlotLimb key 2
  let fourKey ← keySlotLimb key 3
  let one := (← slots.get oneKey).getD .empty
  let two := (← one.get twoKey).getD .empty
  let three := (← two.get threeKey).getD .empty
  slots.set oneKey (← one.set twoKey (← two.set threeKey (← three.set fourKey ⟨key, slot⟩)))

def keySlotsRemove (slots : KeySlots) (key : Key) : Except (Failure Missing) KeySlots := do
  let oneKey ← keySlotLimb key 0
  let twoKey ← keySlotLimb key 1
  let threeKey ← keySlotLimb key 2
  let fourKey ← keySlotLimb key 3
  match ← slots.get oneKey with
  | none => return slots
  | some one =>
    match ← one.get twoKey with
    | none => return slots
    | some two =>
      match ← two.get threeKey with
      | none => return slots
      | some three =>
        slots.set oneKey (← one.set twoKey (← two.set threeKey (← three.remove fourKey)))

end Definitions

section Limbs

variable {key other : Key} {s : Running} {limb n : ℕ}

theorem checked_ok (h : n < 2 ^ 64) :
    ∃ a, (checked n : Except (Failure ε) _) = .ok a ∧ a.toNat = n := by
  refine ⟨UInt64.ofNatLT n h, dif_pos h, ?_⟩
  simp

def bytesRead (key : Key) (limb n : ℕ) : List ℕ := ((key.bytes.drop (8 * limb)).take n).map UInt8.toNat

def limbValue (key : Key) (limb : ℕ) : ℕ := Nat.ofDigits 256 (bytesRead key limb 8)

theorem bytes_small : ∀ d ∈ bytesRead key limb n, d < 256 := by
  intro d hd
  obtain ⟨byte, -, rfl⟩ := List.mem_map.mp hd
  exact byte.toNat_lt

theorem read_length (hlimb : limb < 4) (hn : n ≤ 8) : (bytesRead key limb n).length = n := by
  rw [bytesRead, List.length_map, List.length_take, List.length_drop, key.whole]
  omega

theorem digits_lt (hlimb : limb < 4) (hn : n ≤ 8) : Nat.ofDigits 256 (bytesRead key limb n) < 2 ^ 64 := by
  have hlt : Nat.ofDigits 256 (bytesRead key limb n) < 256 ^ (bytesRead key limb n).length :=
    Nat.ofDigits_lt_base_pow_length (by omega) bytes_small
  rw [read_length hlimb hn] at hlt
  calc Nat.ofDigits 256 (bytesRead key limb n) < 256 ^ n := hlt
    _ ≤ 256 ^ 8 := Nat.pow_le_pow_right (by omega) hn
    _ = 2 ^ 64 := by decide

/-- Where the loop is after `n` turns. -/
structure Read (key : Key) (limb n : ℕ) (s : Running) : Prop where
  value : s.value.toNat = Nat.ofDigits 256 (bytesRead key limb n)
  factor : s.factor.toNat = 256 ^ min n 7
  offset : s.offset.toNat = 8 * limb + n

theorem next_factor {factor : UInt64} (hn : n < 8) (h : factor.toNat = 256 ^ n) :
    ∃ next, (nextFactor factor n : Except (Failure ε) _) = .ok next ∧ next.toNat = 256 ^ min (n + 1) 7 := by
  unfold nextFactor
  by_cases h7 : n < 7
  · have hlt : factor.toNat * (256 : UInt64).toNat < 2 ^ 64 := by
      calc factor.toNat * 256 = 256 ^ (n + 1) := by rw [h, pow_succ]
        _ ≤ 256 ^ 7 := Nat.pow_le_pow_right (by omega) (by omega)
        _ < 2 ^ 64 := by decide
    obtain ⟨next, hrun, hnext⟩ := checked_ok (ε := ε) hlt
    refine ⟨next, (if_pos h7).trans hrun, ?_⟩
    rw [hnext, h, Nat.min_eq_left (by omega), pow_succ]
    rfl
  · refine ⟨factor, if_neg h7, ?_⟩
    rw [h, Nat.min_eq_right (by omega), show n = 7 by omega]

theorem read_byte (hlimb : limb < 4) (hn : n < 8) (h : Read key limb n s) :
    ∃ s', (readByte key s n : Except (Failure ε) _) = .ok s' ∧ Read key limb (n + 1) s' := by
  have hlt : 8 * limb + n < key.bytes.length := by
    rw [key.whole]
    omega
  have hbyte : key.bytes[s.offset.toNat]? = some key.bytes[8 * limb + n] := by
    rw [h.offset, List.getElem?_eq_getElem hlt]
  generalize key.bytes[8 * limb + n] = byte at hbyte
  have hread : bytesRead key limb (n + 1) = bytesRead key limb n ++ [byte.toNat] := by
    rw [h.offset] at hbyte
    rw [bytesRead, List.take_add_one, List.getElem?_drop, hbyte, List.map_append]
    rfl
  have hfactor : s.factor.toNat = 256 ^ n := by
    rw [h.factor, Nat.min_eq_left (by omega)]
  have hvalue : Nat.ofDigits 256 (bytesRead key limb (n + 1)) =
      s.value.toNat + byte.toUInt64.toNat * s.factor.toNat := by
    rw [hread, Nat.ofDigits_append, read_length hlimb (by omega), Nat.ofDigits_singleton, ← h.value, hfactor,
      Nat.mul_comm, UInt8.toNat_toUInt64]
  have hbound : Nat.ofDigits 256 (bytesRead key limb (n + 1)) < 2 ^ 64 := digits_lt hlimb (by omega)
  rw [hvalue] at hbound
  have hlast : s.offset.toNat + (1 : UInt64).toNat < 2 ^ 64 := by
    have : (1 : UInt64).toNat = 1 := rfl
    rw [h.offset]
    omega
  obtain ⟨term, hterm, hterm'⟩ := checked_ok (ε := ε) (n := byte.toUInt64.toNat * s.factor.toNat) (by omega)
  obtain ⟨value, hsum, hsum'⟩ := checked_ok (ε := ε) (n := s.value.toNat + term.toNat) (by omega)
  obtain ⟨factor, hnext, hfactor'⟩ := next_factor (ε := ε) hn hfactor
  obtain ⟨offset, hoffset, hoffset'⟩ := checked_ok (ε := ε) hlast
  refine ⟨⟨value, factor, offset⟩, ?_, ?_, hfactor', ?_⟩
  · simp only [readByte, hbyte, orCrash, mul, add, bind, Except.bind, hterm, hsum, hnext, hoffset]
    rfl
  · rw [hvalue, hsum', hterm']
  · rw [hoffset', h.offset]
    rfl

theorem read_bytes (hlimb : limb < 4) {start : Running} (h : Read key limb 0 start) (hn : n ≤ 8) :
    ∃ s, (List.range n).foldlM (readByte key) start = (.ok s : Except (Failure ε) _) ∧ Read key limb n s := by
  induction n with
  | zero => exact ⟨start, rfl, h⟩
  | succ n ih =>
    obtain ⟨s, hrun, hs⟩ := ih (by omega)
    obtain ⟨s', hstep, hs'⟩ := read_byte hlimb (by omega) hs
    refine ⟨s', ?_, hs'⟩
    rw [List.range_succ, List.foldlM_append, hrun]
    change (readByte key s n >>= fun s => [].foldlM (readByte key) s) = _
    rw [hstep]
    rfl

theorem limb_read (key : Key) {limb : UInt64} (hlimb : limb.toNat < 4) :
    ∃ value, (keySlotLimb key limb : Except (Failure ε) _) = .ok value ∧
      value.toNat = limbValue key limb.toNat := by
  have h8 : (8 : UInt64).toNat = 8 := rfl
  obtain ⟨offset, hoffset, hoffset'⟩ := checked_ok (ε := ε) (n := limb.toNat * (8 : UInt64).toNat) (by
    rw [h8]
    omega)
  have start : Read key limb.toNat 0 ⟨0, 1, offset⟩ := by
    refine ⟨rfl, rfl, ?_⟩
    rw [hoffset', h8, Nat.mul_comm]
    rfl
  obtain ⟨s, hrun, hs⟩ := read_bytes (ε := ε) hlimb start (Nat.le_refl 8)
  refine ⟨s.value, ?_, hs.value⟩
  have hrange : [0, 1, 2, 3, 4, 5, 6, 7] = List.range 8 := rfl
  simp only [keySlotLimb, mul, hoffset, bind, Except.bind]
  rw [hrange, hrun]
  rfl

theorem limb_bytes (hlimb : limb < 4) (h : limbValue key limb = limbValue other limb) :
    (key.bytes.drop (8 * limb)).take 8 = (other.bytes.drop (8 * limb)).take 8 := by
  have hlength : (bytesRead key limb 8).length = (bytesRead other limb 8).length := by
    rw [read_length hlimb (Nat.le_refl 8), read_length hlimb (Nat.le_refl 8)]
  have hdigits := Nat.ofDigits_inj_of_len_eq (b := 256) (by omega) hlength bytes_small bytes_small h
  exact List.map_injective_iff.mpr (fun _ _ => UInt8.toNat_inj.mp) hdigits

theorem limbs_apart (h : ∀ limb < 4, limbValue key limb = limbValue other limb) : key = other := by
  have hbytes : key.bytes = other.bytes := by
    apply List.ext_getElem?
    intro i
    by_cases hi : i < 32
    · have hlimb : i / 8 < 4 := by omega
      have same := congrArg (·[i % 8]?) (limb_bytes hlimb (h _ hlimb))
      have hat : 8 * (i / 8) + i % 8 = i := Nat.div_add_mod i 8
      simpa only [List.getElem?_take, if_pos (Nat.mod_lt i (show 0 < 8 by omega)), List.getElem?_drop, hat]
        using same
    · rw [List.getElem?_eq_none (by rw [key.whole]; omega), List.getElem?_eq_none (by rw [other.whole]; omega)]
  cases key
  cases other
  congr

end Limbs

section Paths

structure Path where
  one : UInt64
  two : UInt64
  three : UInt64
  four : UInt64
  deriving DecidableEq

def limb (key : Key) (n : ℕ) : UInt64 := UInt64.ofNat (limbValue key n)

def path (key : Key) : Path := ⟨limb key 0, limb key 1, limb key 2, limb key 3⟩

theorem limb_toNat (key : Key) {n : ℕ} (hn : n < 4) : (limb key n).toNat = limbValue key n :=
  UInt64.toNat_ofNat_of_lt' (digits_lt hn (Nat.le_refl 8))

theorem limb_ok (key : Key) {n : UInt64} (hn : n.toNat < 4) :
    (keySlotLimb key n : Except (Failure ε) _) = .ok (limb key n.toNat) := by
  obtain ⟨value, hrun, hvalue⟩ := limb_read (ε := ε) key hn
  rw [hrun]
  congr 1
  apply UInt64.toNat_inj.mp
  rw [hvalue, limb_toNat key hn]

theorem limbs_ok (key : Key) :
    (keySlotLimb key 0 : Except (Failure ε) _) = .ok (path key).one ∧
    (keySlotLimb key 1 : Except (Failure ε) _) = .ok (path key).two ∧
    (keySlotLimb key 2 : Except (Failure ε) _) = .ok (path key).three ∧
    (keySlotLimb key 3 : Except (Failure ε) _) = .ok (path key).four :=
  ⟨limb_ok key (by decide), limb_ok key (by decide), limb_ok key (by decide), limb_ok key (by decide)⟩

theorem path_apart {key other : Key} (h : path key = path other) : key = other := by
  obtain ⟨h0, h1, h2, h3⟩ := Path.mk.injEq .. ▸ h
  apply limbs_apart
  intro n hn
  rw [← limb_toNat key hn, ← limb_toNat other hn]
  have cases : n = 0 ∨ n = 1 ∨ n = 2 ∨ n = 3 := by omega
  rcases cases with rfl | rfl | rfl | rfl
  · rw [h0]
  · rw [h1]
  · rw [h2]
  · rw [h3]

end Paths

section Nesting

def Deep (P : α → Prop) (index : Index α) : Prop :=
  index.Sound ∧ ∀ key value, index.held key = some value → P value

variable {P : α → Prop} {index : Index α} {key : UInt64} {value : α}

theorem deep_empty : Deep P (.empty : Index α) := by
  refine ⟨Index.sound_empty, fun key value h => ?_⟩
  rw [Index.held_empty] at h
  cases h

theorem deep_set (h : Deep P index) (hvalue : P value) (key : UInt64) :
    ∃ index', (index.set key value : Except (Failure ε) _) = .ok index' ∧ Deep P index' ∧
      ∀ x, index'.held x = if x = key then some value else index.held x := by
  obtain ⟨index', hrun, hsound, hheld⟩ := Index.set_sound (ε := ε) h.1 key value
  refine ⟨index', hrun, ⟨hsound, fun x v hx => ?_⟩, hheld⟩
  rw [hheld] at hx
  split at hx
  · obtain rfl := Option.some.inj hx
    exact hvalue
  · exact h.2 x v hx

theorem deep_inner {outer : Index (Index α)} (h : Deep (Deep P) outer) (key : UInt64) :
    Deep P ((outer.held key).getD .empty) := by
  cases hinner : outer.held key with
  | none => exact deep_empty
  | some inner => exact h.2 key inner hinner

theorem held_inner (outer : Index (Index α)) (a b : UInt64) :
    ((outer.held a).getD .empty).held b = (outer.held a).bind (·.held b) := by
  cases outer.held a with
  | none => exact Index.held_empty b
  | some inner => rfl

def Whole : KeySlots → Prop := Deep (Deep (Deep (Deep fun _ => True)))

def entryAt (slots : KeySlots) (p : Path) : Option Entry :=
  (((slots.held p.one).bind (·.held p.two)).bind (·.held p.three)).bind (·.held p.four)

/-- Every entry stands where the limbs of its key lead. -/
def Placed (slots : KeySlots) : Prop := ∀ p entry, entryAt slots p = some entry → path entry.key = p

variable {slots : KeySlots}

/-- Replacing the trees along a path changes what is under that path only. -/
theorem entry_replaced {slots' : KeySlots} {one : Index (Index (Index Entry))} {two : Index (Index Entry)}
    {three : Index Entry} {p : Path} {now : Option Entry}
    (hslots : ∀ x, slots'.held x = if x = p.one then some one else slots.held x)
    (hone : ∀ x, one.held x = if x = p.two then some two else (slots.held p.one).bind (·.held x))
    (htwo : ∀ x, two.held x = if x = p.three then some three
      else ((slots.held p.one).bind (·.held p.two)).bind (·.held x))
    (hthree : ∀ x, three.held x = if x = p.four then now
      else (((slots.held p.one).bind (·.held p.two)).bind (·.held p.three)).bind (·.held x)) (q : Path) :
    entryAt slots' q = if q = p then now else entryAt slots q := by
  obtain ⟨q1, q2, q3, q4⟩ := q
  obtain ⟨p1, p2, p3, p4⟩ := p
  simp only [entryAt, Path.mk.injEq]
  by_cases h1 : q1 = p1
  · subst h1
    rw [hslots, if_pos rfl, Option.bind_some, hone]
    by_cases h2 : q2 = p2
    · subst h2
      rw [if_pos rfl, Option.bind_some, htwo]
      by_cases h3 : q3 = p3
      · subst h3
        rw [if_pos rfl, Option.bind_some, hthree]
        simp only [true_and]
      · rw [if_neg h3, if_neg fun h => h3 h.2.2.1]
    · rw [if_neg h2, if_neg fun h => h2 h.2.1]
  · rw [hslots, if_neg h1, if_neg fun h => h1 h.1]

end Nesting

section Operations

variable {slots : KeySlots} {key : Key}

theorem get_answers (h : Whole slots) (placed : Placed slots) (key : Key) :
    keySlotsGet slots key = (found (entryAt slots (path key))).map Entry.slot := by
  obtain ⟨h0, h1, h2, h3⟩ := limbs_ok (ε := Missing) key
  simp only [keySlotsGet, h0, h1, h2, h3, Index.get_held h.1, bind, Except.bind]
  cases hone : slots.held (path key).one with
  | none => simp [entryAt, hone, found, Except.map]
  | some one =>
    have done := h.2 _ _ hone
    simp only [found, Index.get_held done.1]
    cases htwo : one.held (path key).two with
    | none => simp [entryAt, hone, htwo, Except.map]
    | some two =>
      have dtwo := done.2 _ _ htwo
      simp only [Index.get_held dtwo.1]
      cases hthree : two.held (path key).three with
      | none => simp [entryAt, hone, htwo, hthree, Except.map]
      | some three =>
        have dthree := dtwo.2 _ _ hthree
        simp only [Index.get_held dthree.1]
        have hat : entryAt slots (path key) = three.held (path key).four := by
          simp only [entryAt, hone, htwo, hthree, Option.bind_some]
        rw [hat]
        cases hfour : three.held (path key).four with
        | none => rfl
        | some entry =>
          -- a different key under this path would share all four limbs
          have same : entry.key = key := path_apart (placed _ _ (hat.trans hfour))
          exact if_pos same

/-- What an operation leaves: `now` under the path of the key, the rest as it was. -/
structure Leaves (slots : KeySlots) (key : Key) (now : Option Entry) (slots' : KeySlots) : Prop where
  whole : Whole slots'
  entries : ∀ p, entryAt slots' p = if p = path key then now else entryAt slots p

theorem set_leaves (h : Whole slots) (key : Key) (slot : UInt64) :
    ∃ slots', keySlotsSet slots key slot = .ok slots' ∧ Leaves slots key (some ⟨key, slot⟩) slots' := by
  have done := deep_inner h (path key).one
  have dtwo := deep_inner done (path key).two
  have dthree := deep_inner dtwo (path key).three
  obtain ⟨three, hthree, wthree, ethree⟩ :=
    deep_set (ε := Missing) dthree (trivial : (fun _ : Entry => True) ⟨key, slot⟩) (path key).four
  obtain ⟨two, htwo, wtwo, etwo⟩ := deep_set (ε := Missing) dtwo wthree (path key).three
  obtain ⟨one, hone, wone, eone⟩ := deep_set (ε := Missing) done wtwo (path key).two
  obtain ⟨slots', hslots, wslots, eslots⟩ := deep_set (ε := Missing) h wone (path key).one
  have eone' (x : UInt64) : one.held x =
      if x = (path key).two then some two else (slots.held (path key).one).bind (·.held x) := by
    rw [eone, held_inner]
  have etwo' (x : UInt64) : two.held x = if x = (path key).three then some three
      else ((slots.held (path key).one).bind (·.held (path key).two)).bind (·.held x) := by
    rw [etwo, held_inner, held_inner]
  have ethree' (x : UInt64) : three.held x = if x = (path key).four then some ⟨key, slot⟩
      else (((slots.held (path key).one).bind (·.held (path key).two)).bind (·.held (path key).three)).bind
        (·.held x) := by
    rw [ethree, held_inner, held_inner, held_inner]
  obtain ⟨h0, h1, h2, h3⟩ := limbs_ok (ε := Missing) key
  refine ⟨slots', ?_, wslots, entry_replaced eslots eone' etwo' ethree'⟩
  simp only [keySlotsSet, h0, h1, h2, h3, Index.get_held h.1, Index.get_held done.1, Index.get_held dtwo.1,
    bind, Except.bind, hthree, htwo, hone, hslots]

theorem leaves_nothing (h : Whole slots) (hnone : entryAt slots (path key) = none) :
    Leaves slots key none slots := by
  refine ⟨h, fun p => ?_⟩
  by_cases hp : p = path key
  · rw [if_pos hp, hp, hnone]
  · rw [if_neg hp]

theorem remove_leaves (h : Whole slots) (key : Key) :
    ∃ slots', keySlotsRemove slots key = .ok slots' ∧ Leaves slots key none slots' := by
  obtain ⟨h0, h1, h2, h3⟩ := limbs_ok (ε := Missing) key
  simp only [keySlotsRemove, h0, h1, h2, h3, Index.get_held h.1, bind, Except.bind]
  cases hone : slots.held (path key).one with
  | none => exact ⟨slots, rfl, leaves_nothing h (by simp [entryAt, hone])⟩
  | some one =>
    have done := h.2 _ _ hone
    simp only [Index.get_held done.1]
    cases htwo : one.held (path key).two with
    | none => exact ⟨slots, rfl, leaves_nothing h (by simp [entryAt, hone, htwo])⟩
    | some two =>
      have dtwo := done.2 _ _ htwo
      simp only [Index.get_held dtwo.1]
      cases hthree : two.held (path key).three with
      | none => exact ⟨slots, rfl, leaves_nothing h (by simp [entryAt, hone, htwo, hthree])⟩
      | some three =>
        have dthree := dtwo.2 _ _ hthree
        obtain ⟨three', hrun, sound, ethree⟩ := Index.remove_sound (ε := Missing) dthree.1 (path key).four
        obtain ⟨two', htwo', wtwo, etwo⟩ :=
          deep_set (ε := Missing) dtwo ⟨sound, fun _ _ _ => trivial⟩ (path key).three
        obtain ⟨one', hone', wone, eone⟩ := deep_set (ε := Missing) done wtwo (path key).two
        obtain ⟨slots', hslots, wslots, eslots⟩ := deep_set (ε := Missing) h wone (path key).one
        have eone' (x : UInt64) : one'.held x =
            if x = (path key).two then some two' else (slots.held (path key).one).bind (·.held x) := by
          rw [eone, hone, Option.bind_some]
        have etwo' (x : UInt64) : two'.held x = if x = (path key).three then some three'
            else ((slots.held (path key).one).bind (·.held (path key).two)).bind (·.held x) := by
          rw [etwo, hone, Option.bind_some, htwo, Option.bind_some]
        have ethree' (x : UInt64) : three'.held x = if x = (path key).four then none
            else (((slots.held (path key).one).bind (·.held (path key).two)).bind
              (·.held (path key).three)).bind (·.held x) := by
          rw [ethree, hone, Option.bind_some, htwo, Option.bind_some, hthree, Option.bind_some]
        refine ⟨slots', ?_, wslots, entry_replaced eslots eone' etwo' ethree'⟩
        simp only [hrun, htwo', hone', hslots]

inductive Edit where
  | set (key : Key) (slot : UInt64)
  | remove (key : Key)

def Edit.subject : Edit → Key
  | .set key _ | .remove key => key

def Edit.entry : Edit → Option Entry
  | .set key slot => some ⟨key, slot⟩
  | .remove _ => none

def perform (slots : KeySlots) : Edit → Except (Failure Missing) KeySlots
  | .set key slot => keySlotsSet slots key slot
  | .remove key => keySlotsRemove slots key

def Edit.apply (key : Key) (slot : Option UInt64) (edit : Edit) : Option UInt64 :=
  if key = edit.subject then edit.entry.map Entry.slot else slot

def lastSlot (edits : List Edit) (key : Key) : Option UInt64 := edits.foldl (Edit.apply key) none

structure Holds (slots : KeySlots) (last : Key → Option UInt64) : Prop where
  whole : Whole slots
  placed : Placed slots
  entry : ∀ key, (entryAt slots (path key)).map Entry.slot = last key

theorem perform_holds {last : Key → Option UInt64} (h : Holds slots last) (edit : Edit) :
    ∃ slots', perform slots edit = .ok slots' ∧ Holds slots' fun key => edit.apply key (last key) := by
  have performed : ∃ slots', perform slots edit = .ok slots' ∧ Leaves slots edit.subject edit.entry slots' := by
    cases edit with
    | set key slot => exact set_leaves h.whole key slot
    | remove key => exact remove_leaves h.whole key
  obtain ⟨slots', hrun, leaves⟩ := performed
  refine ⟨slots', hrun, leaves.whole, fun p entry hp => ?_, fun key => ?_⟩
  · rw [leaves.entries] at hp
    split at hp
    · rename_i heq
      cases edit with
      | set key slot =>
        obtain rfl := Option.some.inj hp
        exact heq.symm
      | remove key => cases hp
    · exact h.placed p entry hp
  · have same : path key = path edit.subject ↔ key = edit.subject := ⟨path_apart, congrArg path⟩
    rw [leaves.entries, Edit.apply, apply_ite (Option.map Entry.slot), h.entry]
    simp only [same]

theorem edits_hold {last : Key → Option UInt64} (h : Holds slots last) (edits : List Edit) :
    ∃ slots', edits.foldlM perform slots = .ok slots' ∧
      Holds slots' fun key => edits.foldl (Edit.apply key) (last key) := by
  induction edits generalizing slots last with
  | nil => exact ⟨slots, rfl, h⟩
  | cons edit rest ih =>
    obtain ⟨next, hone, hnext⟩ := perform_holds h edit
    obtain ⟨slots', hrest, hslots'⟩ := ih hnext
    refine ⟨slots', ?_, hslots'⟩
    rw [List.foldlM_cons, hone]
    exact hrest

/-- After any edits the slots are an exact map on whole digests: a key has the slot last set for it or
is missing, no other key shares its limbs, and no limb of any digest exceeds 64 bits. -/
theorem key_slots_are_map (edits : List Edit) :
    (∃ slots, edits.foldlM perform .empty = .ok slots ∧
      ∀ key, keySlotsGet slots key = found (lastSlot edits key)) ∧
    (∀ key other, path key = path other → key = other) ∧
    ∀ key limb, limb.toNat < 4 → ∃ value : UInt64, (keySlotLimb key limb : Except (Failure Missing) _) = .ok value ∧
      value.toNat = limbValue key limb.toNat := by
  have start : Holds .empty fun _ => none := by
    refine ⟨deep_empty, fun p entry h => ?_, fun key => ?_⟩
    · simp [entryAt] at h
    · simp [entryAt]
  obtain ⟨slots, hrun, holds⟩ := edits_hold start edits
  refine ⟨⟨slots, hrun, fun key => ?_⟩, fun _ _ => path_apart, fun key _ hlimb => limb_read key hlimb⟩
  rw [get_answers holds.whole holds.placed, lastSlot, ← holds.entry]
  cases entryAt slots (path key) <;> rfl

end Operations

end DigestSlots
