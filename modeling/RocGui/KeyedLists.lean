import Mathlib.Data.List.Basic
import Mathlib.Data.List.Nodup

/-! Ordered association lists with distinct keys, and the edits that keep them so. -/
namespace KeyedLists

/-- Entries in order, each key at most once. -/
@[ext]
structure KeyedList (K V : Type*) where
  entries : List (K × V)
  distinct : (entries.map Prod.fst).Nodup

inductive Refusal (K : Type*) where
  | duplicateKey (key : K)
  | missingKey (key : K)
  | missingAnchor (key : K)
  deriving DecidableEq, Repr

/-- An absent anchor asks for the end of the list. -/
inductive Edit (K V : Type*) where
  | insertBefore (key : K) (value : V) (before : Option K)
  | moveBefore (key : K) (before : Option K)
  | remove (key : K)
  | set (key : K) (value : V)
  deriving DecidableEq, Repr

variable {K V : Type*} [DecidableEq K]

def insertEntry (e : K × V) (before : Option K) : List (K × V) → List (K × V)
  | [] => [e]
  | x :: xs => if before = some x.1 then e :: x :: xs else x :: insertEntry e before xs

theorem insert_entry_perm (e : K × V) (before : Option K) (es : List (K × V)) :
    (insertEntry e before es).Perm (e :: es) := by
  induction es with
  | nil => exact .refl _
  | cons x xs ih =>
    simp only [insertEntry]
    split
    · exact .refl _
    · exact (ih.cons x).trans (.swap e x xs)

theorem lookup_cons (e : K × V) (es : List (K × V)) (x : K) :
    (e :: es).lookup x = if x = e.1 then some e.2 else es.lookup x := by
  obtain ⟨k, v⟩ := e
  by_cases h : x = k
  · rw [if_pos h, h, List.lookup_cons_self]
  · rw [if_neg h, List.lookup_cons, beq_eq_false_iff_ne.mpr h]

omit [DecidableEq K] in
theorem map_fst_map_snd (f : K → V → V) (es : List (K × V)) :
    (es.map fun e => (e.1, f e.1 e.2)).map Prod.fst = es.map Prod.fst := by
  simp [Function.comp_def]

namespace KeyedList

def keys (l : KeyedList K V) : List K := l.entries.map Prod.fst

def get (l : KeyedList K V) (k : K) : Option V := l.entries.lookup k

def empty : KeyedList K V := ⟨[], List.nodup_nil⟩

def place (l : KeyedList K V) (k : K) (v : V) (before : Option K) (fresh : k ∉ l.keys) :
    KeyedList K V where
  entries := insertEntry (k, v) before l.entries
  distinct := ((insert_entry_perm (k, v) before l.entries).map Prod.fst).nodup_iff.mpr
    (List.nodup_cons.mpr ⟨fresh, l.distinct⟩)

def erase (l : KeyedList K V) (k : K) : KeyedList K V where
  entries := l.entries.filter fun e => e.1 ≠ k
  distinct := l.distinct.sublist (List.filter_sublist.map Prod.fst)

theorem not_mem_erase (l : KeyedList K V) (k : K) : k ∉ (l.erase k).keys := by
  simp [keys, erase]

def insertBefore (l : KeyedList K V) (k : K) (v : V) (before : Option K) :
    Except (Refusal K) (KeyedList K V) :=
  if fresh : k ∈ l.keys then .error (.duplicateKey k)
  else match before with
    | none => .ok (l.place k v none fresh)
    | some anchor =>
      if anchor ∈ l.keys then .ok (l.place k v (some anchor) fresh)
      else .error (.missingAnchor anchor)

def remove (l : KeyedList K V) (k : K) : Except (Refusal K) (KeyedList K V) :=
  if k ∈ l.keys then .ok (l.erase k) else .error (.missingKey k)

def adjust (l : KeyedList K V) (k : K) (f : V → V) : KeyedList K V where
  entries := l.entries.map fun e => (e.1, if e.1 = k then f e.2 else e.2)
  distinct := by
    rw [map_fst_map_snd fun x v => if x = k then f v else v]
    exact l.distinct

def update (l : KeyedList K V) (k : K) (f : V → V) : Except (Refusal K) (KeyedList K V) :=
  if k ∈ l.keys then .ok (l.adjust k f) else .error (.missingKey k)

def set (l : KeyedList K V) (k : K) (v : V) : Except (Refusal K) (KeyedList K V) :=
  l.update k fun _ => v

def moveBefore (l : KeyedList K V) (k : K) (before : Option K) :
    Except (Refusal K) (KeyedList K V) :=
  match l.get k with
  | none => .error (.missingKey k)
  | some v =>
    match before with
    | none => .ok ((l.erase k).place k v none (l.not_mem_erase k))
    | some anchor =>
      if anchor = k then .ok l
      else if anchor ∈ l.keys then
        .ok ((l.erase k).place k v (some anchor) (l.not_mem_erase k))
      else .error (.missingAnchor anchor)

def apply (l : KeyedList K V) : Edit K V → Except (Refusal K) (KeyedList K V)
  | .insertBefore k v before => l.insertBefore k v before
  | .moveBefore k before => l.moveBefore k before
  | .remove k => l.remove k
  | .set k v => l.set k v

def applyAll (l : KeyedList K V) : List (Edit K V) → Except (Refusal K) (KeyedList K V)
  | [] => .ok l
  | e :: es => do (← l.apply e).applyAll es

theorem get_place (l : KeyedList K V) (k : K) (v : V) (before : Option K) (fresh : k ∉ l.keys)
    (x : K) : (l.place k v before fresh).get x = if x = k then some v else l.get x := by
  have lookup (es : List (K × V)) (hk : k ∉ es.map Prod.fst) :
      (insertEntry (k, v) before es).lookup x = if x = k then some v else es.lookup x := by
    induction es with
    | nil => simp only [insertEntry, lookup_cons, List.lookup_nil]
    | cons e es ih =>
      rw [List.map_cons, List.mem_cons, not_or] at hk
      simp only [insertEntry]
      split
      · exact lookup_cons (k, v) (e :: es) x
      · simp only [lookup_cons, ih hk.2]
        by_cases h : x = k
        · subst h
          simp [hk.1]
        · simp [h]
  exact lookup l.entries fresh

theorem get_erase (l : KeyedList K V) (k x : K) :
    (l.erase k).get x = if x = k then none else l.get x := by
  have lookup (es : List (K × V)) :
      (es.filter (·.1 ≠ k)).lookup x = if x = k then none else es.lookup x := by
    induction es with
    | nil => simp
    | cons e es ih =>
      by_cases he : e.1 = k
      · rw [List.filter_cons_of_neg (by simpa using he), ih, lookup_cons]
        split <;> simp_all
      · rw [List.filter_cons_of_pos (by simpa using he), lookup_cons, lookup_cons, ih]
        split <;> simp_all
  exact lookup l.entries

theorem keys_adjust (l : KeyedList K V) (k : K) (f : V → V) : (l.adjust k f).keys = l.keys :=
  map_fst_map_snd (fun x v => if x = k then f v else v) l.entries

theorem get_adjust (l : KeyedList K V) (k : K) (f : V → V) (x : K) :
    (l.adjust k f).get x = if x = k then (l.get x).map f else l.get x := by
  have lookup (es : List (K × V)) :
      (es.map fun e => (e.1, if e.1 = k then f e.2 else e.2)).lookup x =
        if x = k then (es.lookup x).map f else es.lookup x := by
    induction es with
    | nil => simp
    | cons e es ih =>
      rw [List.map_cons, lookup_cons, lookup_cons, ih]
      by_cases hx : x = e.1
      · subst hx
        split <;> simp_all
      · simp [hx]
  exact lookup l.entries

end KeyedList

/-! What an accepted edit leaves under each key. -/
section Lookups

variable {l l' : KeyedList K V} {k : K} {v : V} {before : Option K}

theorem insert_get (h : l.insertBefore k v before = .ok l') :
    k ∉ l.keys ∧ ∀ x, l'.get x = if x = k then some v else l.get x := by
  unfold KeyedList.insertBefore at h
  split at h
  · cases h
  rename_i fresh
  split at h
  · obtain rfl := Except.ok.inj h
    exact ⟨fresh, l.get_place k v none fresh⟩
  · split at h
    · obtain rfl := Except.ok.inj h
      exact ⟨fresh, l.get_place k v _ fresh⟩
    · cases h

theorem remove_get (h : l.remove k = .ok l') : ∀ x, l'.get x = if x = k then none else l.get x := by
  unfold KeyedList.remove at h
  split at h
  · obtain rfl := Except.ok.inj h
    exact l.get_erase k
  · cases h

theorem update_get {f : V → V} (h : l.update k f = .ok l') :
    ∀ x, l'.get x = if x = k then (l.get x).map f else l.get x := by
  unfold KeyedList.update at h
  split at h
  · obtain rfl := Except.ok.inj h
    exact l.get_adjust k f
  · cases h

theorem move_get (h : l.moveBefore k before = .ok l') : ∀ x, l'.get x = l.get x := by
  have back {w : V} (hw : l.get k = some w) (anchor : Option K) (x : K) :
      ((l.erase k).place k w anchor (l.not_mem_erase k)).get x = l.get x := by
    rw [KeyedList.get_place, KeyedList.get_erase]
    split
    · rename_i hx
      rw [hx, hw]
    · rfl
  unfold KeyedList.moveBefore at h
  split at h
  · cases h
  rename_i w hw
  split at h
  · obtain rfl := Except.ok.inj h
    exact back hw none
  split at h
  · obtain rfl := Except.ok.inj h
    exact fun _ => rfl
  split at h
  · obtain rfl := Except.ok.inj h
    exact back hw _
  · cases h

end Lookups

/-! An edit seen from where it happens: the list is cut at the edited place. -/
section Cut

theorem get_eq_some_iff {l : KeyedList K V} {k : K} {v : V} :
    l.get k = some v ↔ ∃ xs ys, l.entries = xs ++ (k, v) :: ys := by
  rw [KeyedList.get, List.lookup_eq_some_iff]
  constructor
  · rintro ⟨xs, ys, h, -⟩
    exact ⟨xs, ys, h⟩
  · rintro ⟨xs, ys, h⟩
    refine ⟨xs, ys, h, fun p hp => ?_⟩
    have distinct := l.distinct
    rw [h, List.map_append, List.nodup_append] at distinct
    simpa using (distinct.2.2 p.1 (List.mem_map_of_mem hp) k (by simp)).symm

theorem mem_entries_iff {l : KeyedList K V} {k : K} {v : V} :
    (k, v) ∈ l.entries ↔ l.get k = some v := by
  rw [get_eq_some_iff, List.mem_iff_append]

theorem get_is_some {l : KeyedList K V} {k : K} : (l.get k).isSome ↔ k ∈ l.keys := by
  rw [KeyedList.get, List.lookup_isSome_iff, KeyedList.keys, List.mem_map]
  exact exists_congr fun e => and_congr_right fun _ => by rw [beq_iff_eq, eq_comm]

theorem mem_keys_iff {l : KeyedList K V} {k : K} :
    k ∈ l.keys ↔ ∃ v xs ys, l.entries = xs ++ (k, v) :: ys := by
  rw [← get_is_some, Option.isSome_iff_exists]
  exact exists_congr fun v => get_eq_some_iff

variable {xs ys : List (K × V)} {k : K} {v : V}

omit [DecidableEq K] in
theorem cut_not_mem {l : KeyedList K V} (h : l.entries = xs ++ (k, v) :: ys) :
    k ∉ xs.map Prod.fst ∧ k ∉ ys.map Prod.fst := by
  have distinct := l.distinct
  rw [h, List.map_append, List.map_cons, List.nodup_append, List.nodup_cons] at distinct
  exact ⟨fun hx => distinct.2.2 k hx k (by simp) rfl, distinct.2.1.1⟩

omit [DecidableEq K] in
theorem ne_of_not_mem_keys {zs : List (K × V)} (hz : k ∉ zs.map Prod.fst) :
    ∀ e ∈ zs, e.1 ≠ k := fun _ he heq => hz (heq ▸ List.mem_map_of_mem he)

theorem erase_entries {l : KeyedList K V} (h : l.entries = xs ++ (k, v) :: ys) :
    (l.erase k).entries = xs ++ ys := by
  have away (zs : List (K × V)) (hz : k ∉ zs.map Prod.fst) : zs.filter (·.1 ≠ k) = zs :=
    List.filter_eq_self.mpr fun e he => by simpa using ne_of_not_mem_keys hz e he
  obtain ⟨hx, hy⟩ := cut_not_mem h
  simp only [KeyedList.erase, h, List.filter_append, List.filter_cons, away xs hx, away ys hy]
  simp

theorem adjust_entries {l : KeyedList K V} (h : l.entries = xs ++ (k, v) :: ys) (f : V → V) :
    (l.adjust k f).entries = xs ++ (k, f v) :: ys := by
  have away (zs : List (K × V)) (hz : k ∉ zs.map Prod.fst) :
      zs.map (fun e => (e.1, if e.1 = k then f e.2 else e.2)) = zs :=
    (List.map_congr_left fun e he => by rw [if_neg (ne_of_not_mem_keys hz e he)]; rfl).trans
      (List.map_id zs)
  obtain ⟨hx, hy⟩ := cut_not_mem h
  simp only [KeyedList.adjust, h, List.map_append, List.map_cons, away xs hx, away ys hy,
    if_true]

/-- Where an anchored insertion goes: in front of the anchor. -/
theorem insert_entry_cut (e : K × V) {before : Option K}
    (hx : ∀ a ∈ before, a ∉ xs.map Prod.fst) (hy : (ys.map Prod.fst).head? = before) :
    insertEntry e before (xs ++ ys) = xs ++ e :: ys := by
  induction xs with
  | nil =>
    cases ys with
    | nil => rfl
    | cons y ys =>
      have : before = some y.1 := by simpa using hy.symm
      simp [insertEntry, this]
  | cons x xs ih =>
    have hne : before ≠ some x.1 := fun h => hx x.1 (h ▸ rfl) (by simp)
    have ih := ih fun a ha hm => hx a ha (by simp [hm])
    simp [insertEntry, hne, ih]

theorem place_entries {l : KeyedList K V} {before : Option K} (fresh : k ∉ l.keys)
    (cut : l.entries = xs ++ ys) (hx : ∀ a ∈ before, a ∉ xs.map Prod.fst)
    (hy : (ys.map Prod.fst).head? = before) :
    (l.place k v before fresh).entries = xs ++ (k, v) :: ys := by
  simp only [KeyedList.place, cut]
  exact insert_entry_cut (k, v) hx hy

theorem anchor_cut {l : KeyedList K V} {before : Option K} (h : ∀ a ∈ before, a ∈ l.keys) :
    ∃ xs ys, l.entries = xs ++ ys ∧ (∀ a ∈ before, a ∉ xs.map Prod.fst) ∧
      (ys.map Prod.fst).head? = before := by
  cases before with
  | none => exact ⟨l.entries, [], by simp, by simp, rfl⟩
  | some a =>
    obtain ⟨v, xs, ys, hl⟩ := mem_keys_iff.mp (h a rfl)
    refine ⟨xs, (a, v) :: ys, hl, ?_, rfl⟩
    intro b hb
    obtain rfl : a = b := by simpa using hb
    exact (cut_not_mem hl).1

end Cut

end KeyedLists
