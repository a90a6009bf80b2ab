import RocGui.KeyedSeqs
import RocGui.OrderRemovals

/-! A keyed collection is its list of entries: every operation does to the one what the
plain operation does to the other. -/
namespace KeyedSeqLists

open FiniteMaps Methods KeyedLists OrderTables OrderTrees OrderShapes OrderInsertions OrderRemovals
open KeyedSeqs RankTree

variable {K V : Type} [DecidableEq K] {h : ℕ}

/-- The order tree lists the slots of these entries, and keys and slots name each other. -/
structure Sound (s : KeyedSeq K V) (l : KeyedList K V) (t : RankTree h) : Prop where
  ordered : Ordered s.order t
  listed : t.slots.map s.values.get = l.entries.map some
  keyed : ∀ k slot, s.keys.get k = some slot ↔ ∃ v, s.values.get slot = some (k, v)
  held : ∀ slot, (s.values.get slot).isSome ↔ slot ∈ t.slots
  below : ∀ slot ∈ t.slots, slot < s.nextSlot
  first : 0 < s.nextSlot

/-- A collection that holds these entries, after at most so many insertions and moves. An
emptied tree starts over. -/
def Holds (s : KeyedSeq K V) (l : KeyedList K V) (spent : ℕ) : Prop :=
  ∃ h, ∃ t : RankTree h, Sound s l t ∧ 7 * s.order.nextNode + t.excess ≤ 14 + spent ∧
    (t.slots = [] → 7 * s.order.nextNode + t.excess = 14)

def refusal : Refusal K → Error K
  | .duplicateKey k => .duplicateKey k
  | .missingKey k => .missingKey k
  | .missingAnchor k => .missingAnchor k

def inserts : Edit K V → Bool
  | .insertBefore .. => true
  | _ => false

/-- The slots that these edits hand out. -/
def insertions (es : List (Edit K V)) : ℕ := es.countP inserts

/-- What edits answer when no slot is left for an insertion, or, after very many edits, no node id
or no larger count of visited nodes. -/
inductive Spent (s : KeyedSeq K V) (es : List (Edit K V)) (spent : ℕ) : Answer K (KeyedSeq K V) → Prop
  | slots : maxId < s.nextSlot + insertions es → Spent s es spent (.error (.error .slotExhausted))
  | edits {failure : Failure (Error K)} : maxId ≤ spent →
      failure = exhausted ∨ failure = overflowed → Spent s es spent (.error failure)

/-- Edits answer as the plain ones do, unless a counter runs out. -/
def Follows (s : KeyedSeq K V) (es : List (Edit K V)) (spent : ℕ) (r : Answer K (KeyedSeq K V))
    (plain : Except (Refusal K) (KeyedList K V)) : Prop :=
  (∃ s' l', r = .ok s' ∧ plain = .ok l' ∧ Holds s' l' spent ∧ s'.revision = s.revision ∧
    s'.transition = s.transition ∧ s'.nextSlot = s.nextSlot + insertions es) ∨
  (∃ e, r = .error (.error (refusal e)) ∧ plain = .error e) ∨ Spent s es spent r

theorem spent_bind {s : KeyedSeq K V} {es : List (Edit K V)} {spent : ℕ}
    {r : Answer K (KeyedSeq K V)} (f : KeyedSeq K V → Answer K (KeyedSeq K V))
    (h : Spent s es spent r) : Spent s es spent (r >>= f) := by
  cases h with
  | slots few => exact .slots few
  | edits many failed => exact .edits many failed

omit [DecidableEq K] in
theorem plus_ok {a b : ℕ} (h : a + b ≤ maxId) : (plus a b : Answer K ℕ) = .ok (a + b) := if_pos h

omit [DecidableEq K] in
theorem plus_over {a b : ℕ} (h : ¬a + b ≤ maxId) : (plus a b : Answer K ℕ) = .error overflowed :=
  if_neg h

theorem long_paths {nodes excess n visits : ℕ} (credit : 7 * nodes + excess ≤ 14 + n)
    (short : visits ≤ 4 * nodes) (beyond : ¬visits ≤ maxId) : maxId ≤ n + 1 := by
  have : maxId = 2 ^ 64 - 1 := rfl
  omega

section Cut

variable {s : KeyedSeq K V} {l : KeyedList K V} {t : RankTree h}

theorem holds_mono {n m : ℕ} (hs : Holds s l n) (h : n ≤ m) : Holds s l m := by
  obtain ⟨h', t, hsound, hnode, hreset⟩ := hs
  exact ⟨h', t, hsound, by omega, hreset⟩

theorem cut_slots (hs : Sound s l t) {xs ys : List (K × V)} (cut : l.entries = xs ++ ys) :
    ∃ as bs, t.slots = as ++ bs ∧ as.map s.values.get = xs.map some ∧
      bs.map s.values.get = ys.map some := by
  have listed := hs.listed
  rw [cut, List.map_append, List.map_eq_append_iff] at listed
  exact listed

theorem cut_slot (hs : Sound s l t) {xs ys : List (K × V)} {k : K} {v : V}
    (cut : l.entries = xs ++ (k, v) :: ys) : ∃ as slot bs, t.slots = as ++ slot :: bs ∧
      as.map s.values.get = xs.map some ∧ bs.map s.values.get = ys.map some ∧
      s.values.get slot = some (k, v) ∧ s.keys.get k = some slot := by
  obtain ⟨as, bs, hslots, has, hbs⟩ := cut_slots hs cut
  rw [List.map_cons, List.map_eq_cons_iff] at hbs
  obtain ⟨slot, bs, rfl, hslot, hbs⟩ := hbs
  exact ⟨as, slot, bs, hslots, has, hbs, hslot, (hs.keyed k slot).mpr ⟨v, hslot⟩⟩

theorem key_listed (hs : Sound s l t) {k : K} : k ∈ l.keys ↔ (s.keys.get k).isSome := by
  constructor
  · intro hk
    obtain ⟨v, xs, ys, cut⟩ := mem_keys_iff.mp hk
    obtain ⟨-, slot, -, -, -, -, -, hkey⟩ := cut_slot hs cut
    rw [hkey]
    rfl
  · intro hk
    obtain ⟨slot, hslot⟩ := Option.isSome_iff_exists.mp hk
    obtain ⟨v, hv⟩ := (hs.keyed k slot).mp hslot
    have hmem : slot ∈ t.slots := (hs.held slot).mp (by rw [hv]; rfl)
    have : some (k, v) ∈ l.entries.map some := by
      rw [← hs.listed, ← hv]
      exact List.mem_map_of_mem hmem
    obtain ⟨e, he, heq⟩ := List.mem_map.mp this
    exact List.mem_map.mpr ⟨e, he, by rw [Option.some.inj heq]⟩

theorem anchor_missing (hs : Sound s l t) {a : K} (ha : a ∉ l.keys) : s.keys.get a = none := by
  simpa using mt (key_listed hs).mpr ha

theorem slot_of (hs : Sound s l t) {k : K} : s.slotOf k =
    if k ∈ l.keys then .ok ((s.keys.get k).getD 0) else .error (.error (.missingKey k)) := by
  rw [KeyedSeq.slotOf]
  cases hk : s.keys.get k with
  | none =>
    rw [if_neg]
    rw [key_listed hs, hk]
    simp
  | some slot =>
    rw [if_pos]
    · rfl
    · rw [key_listed hs, hk]
      rfl

theorem rank_of_cut {ε : Type} {o : RowsOrder} (ord : Ordered o t) {as bs : List ℕ} {slot : ℕ}
    (cut : t.slots = as ++ slot :: bs) :
    (orderRank o slot : Except (Failure ε) _) = .ok (some as.length) := by
  have distinct := ord.distinct
  rw [cut, List.nodup_append] at distinct
  have hnot : slot ∉ as := fun hm => distinct.2.2 slot hm slot (by simp) rfl
  rw [rank_order ord (by rw [cut]; simp), cut, List.idxOf_append_of_notMem hnot]
  simp

/-- The slots from an index on start with the one asked for, or there are none. -/
def Anchored (s : KeyedSeq K V) (back : List ℕ) : Option K → Prop
  | none => back = []
  | some anchor => ∃ slot rest, s.keys.get anchor = some slot ∧ back = slot :: rest

theorem placement_index {o : RowsOrder} (ord : Ordered o t) {as bs : List ℕ}
    (cut : t.slots = as ++ bs) {before : Option K} (anchored : Anchored s bs before)
    (message : String) : s.placementIndex o message before = .ok as.length := by
  cases before with
  | none =>
    rw [KeyedSeq.placementIndex, order_len ord, cut, show bs = [] from anchored, List.append_nil]
  | some anchor =>
    obtain ⟨slot, rest, hkey, rfl⟩ := anchored
    rw [KeyedSeq.placementIndex, hkey]
    simp only [rank_of_cut ord cut, ok_bind, or_crash_some]

theorem placement_visits {o : RowsOrder} (ord : Ordered o t) {as bs : List ℕ}
    (cut : t.slots = as ++ bs) {before : Option K} (anchored : Anchored s bs before) :
    ∃ visits ≤ 2 * o.nextNode,
      (KeyedSeq.placementVisits o as.length before : Answer K ℕ) = plus 0 visits := by
  have hshort := fuel_enough ord
  have inside : as.length < t.slots.length ∨ true = true ∧ as.length = t.slots.length := by
    have hle : as.length ≤ t.slots.length := by
      rw [cut, List.length_append]
      omega
    exact (Nat.lt_or_eq_of_le hle).imp_right fun heq => ⟨rfl, heq⟩
  cases before with
  | none =>
    refine ⟨h + 1, by omega, ?_⟩
    rw [KeyedSeq.placementVisits, path_visits ord inside]
    rfl
  | some anchor =>
    obtain ⟨slot, rest, -, rfl⟩ := anchored
    have front : as.length < t.slots.length := by
      rw [cut, List.length_append, List.length_cons]
      omega
    refine ⟨h + 1 + (h + 1), by omega, ?_⟩
    rw [KeyedSeq.placementVisits, path_visits ord (.inl front), path_visits ord inside]
    simp only [ok_bind, plus, Nat.zero_add]

theorem anchored_cut (hs : Sound s l t) {before : Option K} (hb : ∀ a ∈ before, a ∈ l.keys) :
    ∃ xs ys as bs, l.entries = xs ++ ys ∧ (∀ a ∈ before, a ∉ xs.map Prod.fst) ∧
      (ys.map Prod.fst).head? = before ∧ t.slots = as ++ bs ∧
      as.map s.values.get = xs.map some ∧ bs.map s.values.get = ys.map some ∧
      Anchored s bs before := by
  obtain ⟨xs, ys, cut, hxs, hys⟩ := anchor_cut hb
  obtain ⟨as, bs, hslots, has, hbs⟩ := cut_slots hs cut
  refine ⟨xs, ys, as, bs, cut, hxs, hys, hslots, has, hbs, ?_⟩
  cases ys with
  | nil =>
    obtain rfl : before = none := by simpa using hys.symm
    simpa [Anchored] using hbs
  | cons y ys =>
    obtain rfl : before = some y.1 := by simpa using hys.symm
    rw [List.map_cons, List.map_eq_cons_iff] at hbs
    obtain ⟨slot, rest, rfl, hslot, -⟩ := hbs
    exact ⟨slot, rest, (hs.keyed _ _).mpr ⟨y.2, hslot⟩, rfl⟩

end Cut

section Moved

variable {s : KeyedSeq K V} {l : KeyedList K V} {t : RankTree h} {o' : RowsOrder} {h' : ℕ}
  {t' : RankTree h'} {xs ys : List (K × V)} {as bs : List ℕ} {k : K} {v : V} {slot : ℕ}

theorem sound_insert {before : Option K} (next : ℕ) (hs : Sound s l t) (fresh : k ∉ l.keys)
    (cut : l.entries = xs ++ ys) (hxs : ∀ a ∈ before, a ∉ xs.map Prod.fst)
    (hys : (ys.map Prod.fst).head? = before) (hslots : t.slots = as ++ bs)
    (has : as.map s.values.get = xs.map some) (hbs : bs.map s.values.get = ys.map some)
    (hnew : slot ∉ t.slots) (ord : Ordered o' t') (hslots' : t'.slots = as ++ slot :: bs)
    (hlt : slot < next) (hle : s.nextSlot ≤ next) (visits : ℕ) :
    Sound { s with
      order := o'
      values := s.values.set slot (k, v)
      keys := s.keys.set k slot
      nextSlot := next
      lastVisits := visits } (l.place k v before fresh) t' := by
  have hvalue (x : ℕ) : (s.values.set slot (k, v)).get x =
      if x = slot then some (k, v) else s.values.get x := FiniteMap.get_set ..
  have old {cs : List ℕ} (sub : ∀ c ∈ cs, c ∈ t.slots) :
      cs.map (s.values.set slot (k, v)).get = cs.map s.values.get := by
    refine List.map_congr_left fun c hc => ?_
    rw [hvalue, if_neg]
    rintro rfl
    exact hnew (sub _ hc)
  have absent {v' : V} {x : ℕ} (hv : s.values.get x = some (k, v')) : False := by
    refine fresh ((key_listed hs).mpr ?_)
    rw [(hs.keyed k x).mpr ⟨v', hv⟩]
    rfl
  constructor
  case ordered => exact ord
  case listed =>
    rw [hslots', place_entries fresh cut hxs hys, List.map_append, List.map_cons,
      List.map_append, List.map_cons, old fun c hc => by simp [hslots, hc],
      old fun c hc => by simp [hslots, hc], has, hbs, hvalue, if_pos rfl]
  case keyed =>
    intro k' x
    simp only [FiniteMap.get_set]
    by_cases hk' : k' = k
    · subst hk'
      rw [if_pos rfl]
      constructor
      · rintro heq
        exact ⟨v, if_pos (Option.some.inj heq).symm⟩
      · rintro ⟨v', hv'⟩
        split at hv'
        · rename_i heq
          rw [heq]
        · exact (absent hv').elim
    · rw [if_neg hk', hs.keyed]
      refine exists_congr fun v' => ?_
      split
      · rename_i heq
        subst heq
        constructor
        · intro hv'
          exact (hnew ((hs.held _).mp (by rw [hv']; rfl))).elim
        · rintro heq
          exact (hk' (by simpa using congrArg (Option.map Prod.fst) heq.symm)).elim
      · rfl
  case held =>
    intro x
    rw [hslots', List.mem_append, List.mem_cons]
    simp only [hvalue]
    split
    · rename_i heq
      simp [heq]
    · rename_i hne
      rw [hs.held, hslots, List.mem_append]
      simp [hne]
  case below =>
    intro x hm
    rw [hslots', List.mem_append, List.mem_cons] at hm
    have old : x ∈ t.slots → x < s.nextSlot := hs.below x
    rw [hslots, List.mem_append] at old
    simp only
    rcases hm with hm | rfl | hm
    · have := old (.inl hm)
      omega
    · omega
    · have := old (.inr hm)
      omega
  case first =>
    simp only
    omega

theorem sound_erase (hs : Sound s l t) (cut : l.entries = xs ++ (k, v) :: ys)
    (hslots : t.slots = as ++ slot :: bs) (has : as.map s.values.get = xs.map some)
    (hbs : bs.map s.values.get = ys.map some) (hslot : s.values.get slot = some (k, v))
    (ord : Ordered o' t') (hslots' : t'.slots = as ++ bs) (visits : ℕ) :
    Sound { s with
      order := o'
      values := s.values.remove slot
      keys := s.keys.remove k
      lastVisits := visits } (l.erase k) t' := by
  have distinct := hs.ordered.distinct
  rw [hslots] at distinct
  have hgone : slot ∉ as ++ bs := (List.nodup_cons.mp (List.nodup_middle.mp distinct)).1
  have hkey : s.keys.get k = some slot := (hs.keyed k slot).mpr ⟨v, hslot⟩
  have hvalue (x : ℕ) : (s.values.remove slot).get x =
      if x = slot then none else s.values.get x := FiniteMap.get_remove ..
  have old {cs : List ℕ} (sub : ∀ c ∈ cs, c ∈ as ++ bs) :
      cs.map (s.values.remove slot).get = cs.map s.values.get := by
    refine List.map_congr_left fun c hc => ?_
    rw [hvalue, if_neg]
    rintro rfl
    exact hgone (sub _ hc)
  constructor
  case ordered => exact ord
  case listed =>
    rw [hslots', erase_entries cut, List.map_append, List.map_append,
      old fun c hc => by simp [hc], old fun c hc => by simp [hc], has, hbs]
  case keyed =>
    intro k' x
    simp only [FiniteMap.get_remove]
    by_cases hk' : k' = k
    · subst hk'
      rw [if_pos rfl]
      refine ⟨fun hnone => by simp at hnone, ?_⟩
      rintro ⟨v', hv'⟩
      split at hv'
      · cases hv'
      · rename_i hne
        have := (hs.keyed k' x).mpr ⟨v', hv'⟩
        rw [hkey] at this
        exact (hne (Option.some.inj this).symm).elim
    · rw [if_neg hk', hs.keyed]
      refine exists_congr fun v' => ?_
      split
      · rename_i heq
        subst heq
        rw [hslot]
        simp [Ne.symm hk']
      · rfl
  case held =>
    intro x
    rw [hslots', hvalue]
    split
    · rename_i heq
      subst heq
      simpa using hgone
    · rename_i hne
      rw [hs.held, hslots, List.mem_append, List.mem_cons, List.mem_append]
      simp [hne]
  case below =>
    intro x hm
    refine hs.below x ?_
    rw [hslots', List.mem_append] at hm
    rw [hslots, List.mem_append, List.mem_cons]
    tauto
  case first => exact hs.first

theorem sound_adjust {w : V} (hs : Sound s l t) (cut : l.entries = xs ++ (k, v) :: ys)
    (hslots : t.slots = as ++ slot :: bs) (has : as.map s.values.get = xs.map some)
    (hbs : bs.map s.values.get = ys.map some) (hslot : s.values.get slot = some (k, v))
    (visits : ℕ) : Sound { s with
      values := s.values.set slot (k, w)
      lastVisits := visits } (l.adjust k fun _ => w) t := by
  have distinct := hs.ordered.distinct
  rw [hslots] at distinct
  have hgone : slot ∉ as ++ bs := (List.nodup_cons.mp (List.nodup_middle.mp distinct)).1
  have hvalue (x : ℕ) : (s.values.set slot (k, w)).get x =
      if x = slot then some (k, w) else s.values.get x := FiniteMap.get_set ..
  have old {cs : List ℕ} (sub : ∀ c ∈ cs, c ∈ as ++ bs) :
      cs.map (s.values.set slot (k, w)).get = cs.map s.values.get := by
    refine List.map_congr_left fun c hc => ?_
    rw [hvalue, if_neg]
    rintro rfl
    exact hgone (sub _ hc)
  constructor
  case ordered => exact hs.ordered
  case listed =>
    rw [hslots, adjust_entries cut, List.map_append, List.map_cons, List.map_append,
      List.map_cons, old fun c hc => by simp [hc], old fun c hc => by simp [hc], has, hbs, hvalue,
      if_pos rfl]
  case keyed =>
    intro k' x
    rw [hs.keyed]
    simp only [hvalue]
    split
    · rename_i heq
      subst heq
      simp [hslot]
    · rfl
  case held =>
    intro x
    simp only [hvalue]
    split
    · rename_i heq
      subst heq
      simp [hslots]
    · exact hs.held x
  case below => exact hs.below
  case first => exact hs.first

end Moved

section Edits

variable {s : KeyedSeq K V} {l : KeyedList K V} {n : ℕ} {k : K} {v : V} {before : Option K}

theorem insert_raw (hs : Holds s l n) : Follows s [.insertBefore k v before] (n + 1)
    (s.insertBeforeRaw k v before) (l.insertBefore k v before) := by
  obtain ⟨h, t, hsound, hnode, hreset⟩ := hs
  rw [KeyedSeq.insertBeforeRaw, KeyedList.insertBefore]
  by_cases hk : k ∈ l.keys
  · rw [dif_pos hk, if_pos ((key_listed hsound).mp hk)]
    exact .inr (.inl ⟨_, rfl, rfl⟩)
  rw [dif_neg hk, if_neg (mt (key_listed hsound).mpr hk)]
  by_cases hmax : s.nextSlot = maxId
  · rw [if_pos hmax]
    exact .inr (.inr (.slots (hmax ▸ Nat.lt_succ_self _)))
  rw [if_neg hmax]
  by_cases hb : ∀ a ∈ before, a ∈ l.keys
  swap
  · cases before with
    | none => simp at hb
    | some a =>
      have ha : a ∉ l.keys := by simpa using hb
      have hnone := anchor_missing hsound ha
      refine .inr (.inl ⟨.missingAnchor a, ?_, if_neg ha⟩)
      rw [KeyedSeq.placementIndex, hnone]
      rfl
  have hplain : ∃ fresh : k ∉ l.keys, (match before with
      | none => Except.ok (l.place k v none hk)
      | some anchor => if anchor ∈ l.keys then .ok (l.place k v (some anchor) hk)
        else .error (Refusal.missingAnchor anchor)) = .ok (l.place k v before fresh) := by
    refine ⟨hk, ?_⟩
    cases before with
    | none => rfl
    | some a => exact if_pos (hb a rfl)
  obtain ⟨fresh, hplain⟩ := hplain
  obtain ⟨xs, ys, as, bs, cut, hxs, hys, hslots, has, hbs, anchored⟩ := anchored_cut hsound hb
  obtain ⟨visits, hshort, hvisits⟩ := placement_visits hsound.ordered hslots anchored
  have hnew : s.nextSlot ∉ t.slots := fun hm => lt_irrefl _ (hsound.below _ hm)
  rw [placement_index hsound.ordered hslots anchored, ok_bind, hvisits]
  by_cases hfits : 0 + visits ≤ maxId
  swap
  · rw [plus_over hfits]
    exact .inr (.inr (.edits (long_paths hnode (by omega) hfits) (.inr rfl)))
  rw [plus_ok hfits, ok_bind]
  rcases insert_ok (ε := Error K) hsound.ordered hsound.first hnew
    (by rw [hslots, List.length_append]; omega : as.length ≤ t.slots.length) with
    ⟨o', h', t', hrun, ins⟩ | ⟨hrun, hcredit⟩
  swap
  · rw [hrun]
    refine .inr (.inr (.edits ?_ (.inl rfl)))
    have : maxId = 2 ^ 64 - 1 := rfl
    omega
  rw [hrun]
  refine .inl ⟨_, _, rfl, hplain, ⟨h', t', ?_, ?_, fun hnil => ?_⟩, rfl, rfl, rfl⟩
  · refine sound_insert (s.nextSlot + 1) hsound fresh cut hxs hys hslots has hbs hnew ins.ordered ?_
      (Nat.lt_succ_self _) (Nat.le_succ _) (0 + visits)
    rw [ins.slots, hslots, List.take_left, List.drop_left]
  · have := ins.credit
    simp only
    omega
  · exact absurd (ins.slots.symm.trans hnil) (by simp)

theorem set_raw (hs : Holds s l n) : Follows s [.set k v] (n + 1) (s.setRaw k v) (l.set k v) := by
  obtain ⟨h, t, hsound, hnode, hreset⟩ := hs
  rw [KeyedSeq.setRaw, slot_of hsound, KeyedList.set, KeyedList.update]
  by_cases hk : k ∈ l.keys
  · rw [if_pos hk, if_pos hk]
    obtain ⟨w, xs, ys, cut⟩ := mem_keys_iff.mp hk
    obtain ⟨as, slot, bs, hslots, has, hbs, hvalue, hkey⟩ := cut_slot hsound cut
    rw [hkey]
    refine .inl ⟨_, _, rfl, rfl, ⟨h, t, ?_, by simp only; omega, hreset⟩, rfl, rfl, rfl⟩
    exact sound_adjust hsound cut hslots has hbs hvalue 0
  · rw [if_neg hk, if_neg hk]
    exact .inr (.inl ⟨_, rfl, rfl⟩)

theorem take_out {t : RankTree h} {xs ys : List (K × V)} (hs : Sound s l t)
    (cut : l.entries = xs ++ (k, v) :: ys) : ∃ as slot bs o' h', ∃ t' : RankTree h',
      t.slots = as ++ slot :: bs ∧ s.values.get slot = some (k, v) ∧ s.keys.get k = some slot ∧
      as.length = xs.length ∧ (orderRemove s.order as.length : Answer K _) = .ok (o', slot) ∧
      t'.slots = as ++ bs ∧ 7 * o'.nextNode + t'.excess ≤ 7 * s.order.nextNode + t.excess ∧
      (t'.slots = [] → 7 * o'.nextNode + t'.excess = 14) ∧ ∀ visits, Sound { s with
        order := o'
        values := s.values.remove slot
        keys := s.keys.remove k
        lastVisits := visits } (l.erase k) t' := by
  obtain ⟨as, slot, bs, hslots, has, hbs, hvalue, hkey⟩ := cut_slot hs cut
  obtain ⟨o', h', t', hrun, rem⟩ := remove_order (ε := Error K) hs.ordered
    (show t.slots[as.length]? = some slot by rw [hslots]; simp)
  have hslots' : t'.slots = as ++ bs := by
    rw [rem.slots, hslots, List.take_left, List.drop_append, List.drop_eq_nil_of_le (Nat.le_succ _)]
    simp
  refine ⟨as, slot, bs, o', h', t', hslots, hvalue, hkey, ?_, hrun, hslots', rem.credit, rem.reset,
    ?_⟩
  · simpa using congrArg List.length has
  · exact sound_erase hs cut hslots has hbs hvalue rem.ordered hslots'

theorem remove_listed (hs : Holds s l n) (hk : k ∈ l.keys) :
    (∃ s', s.removeRaw k = .ok s' ∧ Holds s' (l.erase k) n ∧ s'.revision = s.revision ∧
      s'.transition = s.transition ∧ s'.nextSlot = s.nextSlot ∧
      s'.lastVisits ≤ 2 * s.order.nextNode) ∨
    maxId < 2 * s.order.nextNode ∧ s.removeRaw k = .error overflowed := by
  obtain ⟨h, t, hsound, hnode, -⟩ := hs
  obtain ⟨w, xs, ys, cut⟩ := mem_keys_iff.mp hk
  obtain ⟨as, slot, bs, o', h', t', hslots, -, hkey, -, hrun, -, hcredit, hreset, hsound'⟩ :=
    take_out hsound cut
  have hshort := fuel_enough hsound.ordered
  have front : as.length < t.slots.length := by
    rw [hslots, List.length_append, List.length_cons]
    omega
  rw [KeyedSeq.removeRaw, slot_of hsound, if_pos hk, hkey]
  simp only [ok_bind, Option.getD_some, rank_of_cut hsound.ordered hslots, or_crash_some,
    path_visits hsound.ordered (.inl front)]
  by_cases hfits : h + 1 + (h + 1) ≤ maxId
  · simp only [plus_ok hfits, ok_bind, hrun, pure_eq_ok]
    exact .inl ⟨_, rfl, ⟨h', t', hsound' _, by simp only; omega, hreset⟩, rfl, rfl, rfl,
      by simp only; omega⟩
  · rw [plus_over hfits]
    exact .inr ⟨by omega, rfl⟩

theorem remove_raw (hs : Holds s l n) : Follows s [.remove k] (n + 1) (s.removeRaw k) (l.remove k) := by
  by_cases hk : k ∈ l.keys
  · rcases remove_listed hs hk with ⟨s', hrun, hs', hrev, htr, hnext, -⟩ | ⟨hlong, hrun⟩
    · exact .inl ⟨s', _, hrun, if_pos hk, holds_mono hs' (Nat.le_succ n), hrev, htr, hnext⟩
    · obtain ⟨h, t, -, hnode, -⟩ := hs
      rw [hrun]
      exact .inr (.inr (.edits (long_paths hnode (by omega) (not_le.mpr hlong)) (.inr rfl)))
  · obtain ⟨h, t, hsound, -⟩ := hs
    rw [KeyedSeq.removeRaw, slot_of hsound, KeyedList.remove, if_neg hk, if_neg hk]
    exact .inr (.inl ⟨_, rfl, rfl⟩)

/-- An entry that is taken out and put back leaves the tables of entries and of keys as they were. -/
theorem put_back {w : V} {slot : ℕ} (hvalue : s.values.get slot = some (k, w))
    (hkey : s.keys.get k = some slot) : (s.values.remove slot).set slot (k, w) = s.values ∧
      (s.keys.remove k).set k slot = s.keys := by
  constructor
  · refine FiniteMap.ext fun x => ?_
    rw [FiniteMap.get_set, FiniteMap.get_remove]
    split
    · rename_i heq
      rw [heq, hvalue]
    · rfl
  · refine FiniteMap.ext fun x => ?_
    rw [FiniteMap.get_set, FiniteMap.get_remove]
    split
    · rename_i heq
      rw [heq, hkey]
    · rfl

theorem anchored_removed {back : List ℕ} (apart : before ≠ some k)
    (anchored : Anchored { s with keys := s.keys.remove k } back before) : Anchored s back before := by
  cases before with
  | none => exact anchored
  | some a =>
    obtain ⟨x, rest, hx, hback⟩ := anchored
    have hne : a ≠ k := by
      rintro rfl
      exact apart rfl
    simp only [FiniteMap.get_remove, if_neg hne] at hx
    exact ⟨x, rest, hx, hback⟩

/-- The three look-ups of a move count too many nodes only after too many edits. -/
theorem many_moves {a b n : ℕ} {t : RankTree h} {t' : RankTree m} {up visits : ℕ}
    (hnode : 7 * a + t.excess ≤ 14 + n) (hcredit : 7 * b + t'.excess ≤ 7 * a + t.excess)
    (hup : up ≤ 2 * a) (hvisits : visits ≤ 2 * b) (htotal : ¬up + visits ≤ maxId) : maxId ≤ n + 1 := by
  rcases Nat.le_total b a with hle | hle
  · exact long_paths hnode (by omega) htotal
  · exact long_paths (hcredit.trans hnode) (by omega) htotal

theorem move_raw (hs : Holds s l n) :
    Follows s [.moveBefore k before] (n + 1) (s.moveBeforeRaw k before) (l.moveBefore k before) := by
  have hs' := hs
  obtain ⟨h, t, hsound, hnode, hreset⟩ := hs
  rw [KeyedSeq.moveBeforeRaw, slot_of hsound, KeyedList.moveBefore]
  by_cases hk : k ∈ l.keys
  swap
  · rw [if_neg hk, Option.not_isSome_iff_eq_none.mp (mt get_is_some.mp hk)]
    exact .inr (.inl ⟨_, rfl, rfl⟩)
  obtain ⟨w, xs, ys, cut⟩ := mem_keys_iff.mp hk
  rw [if_pos hk, get_eq_some_iff.mpr ⟨xs, ys, cut⟩]
  simp only [ok_bind]
  by_cases hself : before = some k
  · subst hself
    exact .inl ⟨s, l, if_pos rfl, if_pos rfl, holds_mono hs' (Nat.le_succ n), rfl, rfl, rfl⟩
  rw [if_neg hself]
  obtain ⟨as, slot, bs, o', h', t', hslots, hvalue, hkey, -, hrun, hslots', hcredit, -, hsound'⟩ :=
    take_out hsound cut
  have front : as.length < t.slots.length := by
    rw [hslots, List.length_append, List.length_cons]
    omega
  have hmem : ∀ a ∈ before, a ≠ k ∧ (a ∈ (l.erase k).keys ↔ a ∈ l.keys) := by
    intro a ha
    have hne : a ≠ k := by
      rintro rfl
      exact hself ha
    rw [← get_is_some, ← get_is_some, KeyedList.get_erase, if_neg hne]
    exact ⟨hne, Iff.rfl⟩
  have hshort := fuel_enough hsound.ordered
  rw [hkey]
  simp only [Option.getD_some, rank_of_cut hsound.ordered hslots, ok_bind, or_crash_some,
    path_visits hsound.ordered (.inl front)]
  by_cases hfits : h + 1 + (h + 1) ≤ maxId
  swap
  · rw [plus_over hfits]
    exact .inr (.inr (.edits (long_paths hnode (by omega) hfits) (.inr rfl)))
  simp only [plus_ok hfits, ok_bind, hrun]
  by_cases hb : ∀ a ∈ before, a ∈ l.keys
  swap
  · cases before with
    | none => simp at hb
    | some a =>
      have ha : a ∉ l.keys := by simpa using hb
      have hnone := anchor_missing hsound ha
      refine .inr (.inl ⟨.missingAnchor a, ?_, ?_⟩)
      · rw [KeyedSeq.placementIndex, hnone]
        rfl
      · simp only [if_neg (hmem a rfl).1, if_neg ha]
  have hplain : (match before with
      | none => Except.ok ((l.erase k).place k w none (l.not_mem_erase k))
      | some anchor => if anchor = k then .ok l
        else if anchor ∈ l.keys then
          .ok ((l.erase k).place k w (some anchor) (l.not_mem_erase k))
        else .error (Refusal.missingAnchor anchor)) =
      .ok ((l.erase k).place k w before (l.not_mem_erase k)) := by
    cases before with
    | none => rfl
    | some a => simp only [if_neg (hmem a rfl).1, if_pos (hb a rfl)]
  have hsound' := hsound' 0
  obtain ⟨xs', ys', as', bs', cut', hxs', hys', hslots'', has', hbs', anchored'⟩ :=
    anchored_cut hsound' (show ∀ a ∈ before, a ∈ (l.erase k).keys from
      fun a ha => (hmem a ha).2.mpr (hb a ha))
  have anchored : Anchored s bs' before := anchored_removed hself anchored'
  have hnew : slot ∉ t'.slots := by
    have distinct := hsound.ordered.distinct
    rw [hslots] at distinct
    rw [hslots']
    exact (List.nodup_cons.mp (List.nodup_middle.mp distinct)).1
  have hmem' : slot ∈ t.slots := by simp [hslots]
  obtain ⟨visits, hshort', hvisits⟩ := placement_visits hsound'.ordered hslots'' anchored
  rw [placement_index hsound'.ordered hslots'' anchored, ok_bind, hvisits]
  by_cases htotal : h + 1 + (h + 1) + visits ≤ maxId
  swap
  · have many : maxId ≤ n + 1 := many_moves hnode hcredit (by omega) hshort' htotal
    refine .inr (.inr ?_)
    by_cases hvisits' : 0 + visits ≤ maxId
    · rw [plus_ok hvisits', ok_bind, Nat.zero_add, plus_over htotal]
      exact .edits many (.inr rfl)
    · rw [plus_over hvisits']
      exact .edits many (.inr rfl)
  rw [plus_ok (by omega : 0 + visits ≤ maxId), ok_bind, Nat.zero_add, plus_ok htotal, ok_bind]
  rcases insert_ok (ε := Error K) hsound'.ordered (stored_pos hsound.ordered.stored slot hmem') hnew
    (by rw [hslots'', List.length_append]; omega : as'.length ≤ t'.slots.length) with
    ⟨o'', h'', t'', hrun', ins⟩ | ⟨hrun', hcredit'⟩
  swap
  · rw [hrun']
    refine .inr (.inr (.edits ?_ (.inl rfl)))
    have : maxId = 2 ^ 64 - 1 := rfl
    simp only at hcredit'
    omega
  rw [hrun']
  refine .inl ⟨_, _, rfl, hplain, ⟨h'', t'', ?_, ?_, fun hnil => ?_⟩, rfl, rfl, rfl⟩
  · have sound := sound_insert s.nextSlot hsound' (l.not_mem_erase k) cut' hxs' hys' hslots'' has' hbs' hnew
      ins.ordered (by rw [ins.slots, hslots'', List.take_left, List.drop_left]) (v := w)
      (hsound.below slot hmem') le_rfl
    obtain ⟨hvalues, hkeys⟩ := put_back hvalue hkey
    rw [hvalues, hkeys] at sound
    exact sound _
  · have := ins.credit
    simp only at this ⊢
    omega
  · exact absurd (ins.slots.symm.trans hnil) (by simp)

theorem apply_raw (hs : Holds s l n) (e : Edit K V) :
    Follows s [e] (n + 1) (s.applyRaw e) (l.apply e) := by
  cases e with
  | insertBefore k v before => exact insert_raw hs
  | moveBefore k before => exact move_raw hs
  | remove k => exact remove_raw hs
  | set k v => exact set_raw hs

theorem holds_visits (hs : Holds s l n) (visits : ℕ) : Holds { s with lastVisits := visits } l n := by
  obtain ⟨h, t, hsound, hnode, hreset⟩ := hs
  exact ⟨h, t, ⟨hsound.ordered, hsound.listed, hsound.keyed, hsound.held, hsound.below,
    hsound.first⟩, hnode, hreset⟩

/-- The nodes that each edit counts as visited, up to the first edit that fails. -/
def visitsOf (s : KeyedSeq K V) : List (Edit K V) → List ℕ
  | [] => []
  | e :: es =>
    match s.applyRaw e with
    | .ok s' => s'.lastVisits :: visitsOf s' es
    | .error _ => []

theorem apply_each (es : List (Edit K V)) (hs : Holds s l n) (visits : ℕ) :
    Follows s es (n + es.length) (s.applyEach es visits) (l.applyAll es) ∨
      maxId < visits + (visitsOf s es).sum ∧ s.applyEach es visits = .error overflowed := by
  induction es generalizing s l n visits with
  | nil => exact .inl (.inl ⟨_, l, rfl, rfl, holds_visits hs visits, rfl, rfl, rfl⟩)
  | cons e es ih =>
    rw [KeyedSeq.applyEach, KeyedList.applyAll, visitsOf, List.length_cons, Nat.add_comm es.length,
      ← Nat.add_assoc]
    have hcount : insertions (e :: es) = insertions [e] + insertions es := by
      rw [insertions, ← List.singleton_append, List.countP_append, insertions, insertions]
    rcases apply_raw hs e with ⟨s', l', hr, hp, hs', hrev, htr, hnext⟩ | ⟨e', hr, hp⟩ | spent
    · rw [hr, hp, ok_bind, ok_bind]
      simp only [List.sum_cons]
      by_cases hfits : visits + s'.lastVisits ≤ maxId
      · rw [plus_ok hfits, ok_bind]
        rcases ih hs' (visits + s'.lastVisits) with (⟨s₁, l₁, hr₁, hp₁, hs₁, hrev₁, htr₁, hnext₁⟩ |
          hrefused | hspent) | ⟨hmany, hover⟩
        · exact .inl (.inl ⟨s₁, l₁, hr₁, hp₁, hs₁, hrev₁.trans hrev, htr₁.trans htr,
            by rw [hnext₁, hnext, hcount, Nat.add_assoc]⟩)
        · exact .inl (.inr (.inl hrefused))
        · refine .inl (.inr (.inr ?_))
          generalize s'.applyEach es (visits + s'.lastVisits) = r at hspent ⊢
          cases hspent with
          | slots few => exact .slots (by omega)
          | edits many failed => exact .edits many failed
        · exact .inr ⟨by omega, hover⟩
      · rw [plus_over hfits]
        exact .inr ⟨by omega, rfl⟩
    · rw [hr, hp]
      exact .inl (.inr (.inl ⟨e', rfl, rfl⟩))
    · refine .inl (.inr (.inr (spent_bind _ ?_)))
      generalize s.applyRaw e = r at spent ⊢
      cases spent with
      | slots few => exact .slots (by omega)
      | edits many failed => exact .edits (by omega) failed

end Edits

/-! What reading a collection answers. -/
section Reading

variable {s : KeyedSeq K V} {l : KeyedList K V} {n : ℕ}

theorem empty_holds : ∃ s : KeyedSeq K V, KeyedSeq.empty = .ok s ∧ Holds s KeyedList.empty 0 ∧
    s.revision = 0 ∧ s.nextSlot = 1 ∧ s.lastVisits = 0 := by
  obtain ⟨o, hrun, ord, hnext⟩ := order_empty
  refine ⟨⟨o, ∅, ∅, 1, 0, 0, ⟨0, 0, []⟩⟩, ?_, ⟨0, leaf 1 [], ?_, ?_, fun _ => ?_⟩, rfl, rfl, rfl⟩
  · rw [KeyedSeq.empty, hrun]
    rfl
  · exact ⟨ord, rfl, by simp, by simp, by simp, one_pos⟩
  · simp only [hnext, excess_leaf, List.length_nil]
    omega
  · simp only [hnext, excess_leaf, List.length_nil]

theorem to_list (hs : Holds s l n) : s.toList = .ok l.entries := by
  obtain ⟨h, t, hsound, -⟩ := hs
  have push (es : List (K × V)) (ss : List ℕ) (listed : ss.map s.values.get = es.map some)
      (items : List (K × V)) : ss.foldlM (fun items slot => do
        let entry ← orCrash "KeyedSeq order named a missing value" (s.values.get slot)
        pure (items ++ [entry])) items = (.ok (items ++ es) : Answer K _) := by
    induction ss generalizing es items with
    | nil =>
      obtain rfl : es = [] := by simpa using listed.symm
      rw [List.append_nil]
      rfl
    | cons slot ss ih =>
      rw [List.map_cons, eq_comm, List.map_eq_cons_iff] at listed
      obtain ⟨e, es, rfl, he, hes⟩ := listed
      rw [List.foldlM_cons, ← he]
      simp only [or_crash_some, ok_bind, pure_bind]
      rw [ih es hes.symm, List.append_assoc, List.singleton_append]
  rw [KeyedSeq.toList, fold_order hsound.ordered, push _ _ hsound.listed, List.nil_append]

theorem len_eq (hs : Holds s l n) : s.len = .ok l.entries.length := by
  obtain ⟨h, t, hsound, -⟩ := hs
  rw [KeyedSeq.len, order_len hsound.ordered]
  exact congrArg _ (by simpa using congrArg List.length hsound.listed)

theorem get_eq (hs : Holds s l n) (k : K) : s.get k =
    match l.get k with
    | some v => .ok v
    | none => .error (.error (.missingKey k)) := by
  obtain ⟨h, t, hsound, -⟩ := hs
  rw [KeyedSeq.get, slot_of hsound]
  by_cases hk : k ∈ l.keys
  · obtain ⟨v, xs, ys, cut⟩ := mem_keys_iff.mp hk
    obtain ⟨as, slot, bs, -, -, -, hvalue, hkey⟩ := cut_slot hsound cut
    rw [if_pos hk, hkey, get_eq_some_iff.mpr ⟨xs, ys, cut⟩]
    simp only [Option.getD_some, ok_bind, hvalue, pure_eq_ok]
  · rw [if_neg hk, Option.not_isSome_iff_eq_none.mp (mt get_is_some.mp hk)]
    rfl

theorem placement_after (hs : Holds s l n) {xs ys : List (K × V)} {k : K} {v : V}
    (cut : l.entries = xs ++ (k, v) :: ys) :
    s.placementAfter k = .ok (ys.head?.map Prod.fst) := by
  obtain ⟨h, t, hsound, -⟩ := hs
  obtain ⟨as, slot, bs, hslots, has, hbs, hvalue, hkey⟩ := cut_slot hsound cut
  have hk : k ∈ l.keys := mem_keys_iff.mpr ⟨v, xs, ys, cut⟩
  rw [KeyedSeq.placementAfter, slot_of hsound, if_pos hk, hkey]
  simp only [Option.getD_some, ok_bind, rank_of_cut hsound.ordered hslots, or_crash_some,
    order_len hsound.ordered]
  cases ys with
  | nil =>
    obtain rfl : bs = [] := by simpa using hbs
    rw [if_pos (by rw [hslots, List.length_append]; exact le_rfl)]
    rfl
  | cons y ys =>
    rw [List.map_cons, List.map_eq_cons_iff] at hbs
    obtain ⟨slot', bs, rfl, hslot', -⟩ := hbs
    have front : as.length + 1 < t.slots.length := by
      rw [hslots, List.length_append, List.length_cons, List.length_cons]
      omega
    obtain ⟨location, ss, hloc, hpos, hnode, hoffset, -⟩ := locate_node (ε := Error K)
      false hsound.ordered.stored (fuel_enough hsound.ordered) (.inl front)
    have hoffset := hoffset front
    rw [hslots, List.getElem?_append_right (Nat.le_succ _), Nat.succ_sub (le_refl _),
      Nat.sub_self] at hoffset
    rw [if_neg (by omega)]
    have hnext : ss[location.offset]? = some slot' := by simpa using hoffset
    rw [orderLocate, ← hsound.ordered.root, hloc]
    simp only [ok_bind, get_node_ok hpos hnode, hnext, or_crash_some, hslot', pure_eq_ok,
      List.head?_cons, Option.map_some]

end Reading

end KeyedSeqLists
