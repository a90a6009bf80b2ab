import RocGui.KeyedSeqRuns

/-! The journal of a collection: replayed on its base it gives the collection, and a
difference is a journal from one collection to another. -/
namespace KeyedSeqJournals

open FiniteMaps Methods KeyedLists OrderTables OrderTrees OrderShapes KeyedSeqs KeyedSeqLists
open KeyedSeqRuns

variable {K V : Type} [DecidableEq K]

def Base (s : KeyedSeq K V) : Operation K V → KeyedSeq K V → Prop
  | .fromList _, base => KeyedSeq.empty = .ok base
  | .setLocal _ _, _ | .applyRaw _, _ => False
  | _, base => base = s

/-- A collection records the edits that turn its base into it. -/
structure Replays (base s : KeyedSeq K V) : Prop where
  baseRevision : s.transition.baseRevision = base.revision
  revision : s.revision = base.revision + 1
  carried : s.transition.revision = s.revision
  direct : s.transitionFrom base.revision = .ok s.transition
  only : ∀ r, r ≠ base.revision → ∃ e, s.transitionFrom r = .error e
  replay : ∃ t, base.applyAll s.transition.edits = .ok t ∧
    ∃ entries, t.toList = .ok entries ∧ s.toList = .ok entries

section Recorded

variable {s s' base : KeyedSeq K V} {l : KeyedList K V} {n visits : ℕ}

omit [DecidableEq K] in
theorem plus_fits {a b c : ℕ} (h : (plus a b : Answer K ℕ) = .ok c) : c ≤ maxId := by
  by_cases hfits : a + b ≤ maxId
  · obtain rfl := Except.ok.inj ((plus_ok hfits).symm.trans h)
    exact hfits
  · cases (plus_over hfits).symm.trans h

omit [DecidableEq K] in
theorem placement_fits {order : RowsOrder} {index : ℕ} {before : Option K}
    (h : (KeyedSeq.placementVisits order index before : Answer K ℕ) = .ok visits) :
    visits ≤ maxId := by
  unfold KeyedSeq.placementVisits at h
  cases before with
  | none =>
    obtain ⟨rankVisits, -, h⟩ := except_bind_ok.mp h
    obtain ⟨path, -, h⟩ := except_bind_ok.mp h
    exact plus_fits h
  | some anchor =>
    obtain ⟨rankVisits, -, h⟩ := except_bind_ok.mp h
    obtain ⟨path, -, h⟩ := except_bind_ok.mp h
    exact plus_fits h

theorem raw_fits {e : Edit K V} (h : s.applyRaw e = .ok s') (fits : s.lastVisits ≤ maxId) :
    s'.lastVisits ≤ maxId := by
  cases e with
  | insertBefore k v before =>
    rw [KeyedSeq.applyRaw, KeyedSeq.insertBeforeRaw] at h
    split at h
    · cases h
    split at h
    · cases h
    obtain ⟨index, -, h⟩ := except_bind_ok.mp h
    obtain ⟨visits, hvisits, h⟩ := except_bind_ok.mp h
    obtain ⟨order, -, h⟩ := except_bind_ok.mp h
    obtain rfl := Except.ok.inj h
    exact placement_fits hvisits
  | moveBefore k before =>
    obtain ⟨slot, -, h⟩ := except_bind_ok.mp h
    split at h
    · obtain rfl := Except.ok.inj h
      exact fits
    obtain ⟨found, -, h⟩ := except_bind_ok.mp h
    obtain ⟨rank, -, h⟩ := except_bind_ok.mp h
    obtain ⟨path, -, h⟩ := except_bind_ok.mp h
    obtain ⟨away, -, h⟩ := except_bind_ok.mp h
    obtain ⟨without, -, h⟩ := except_bind_ok.mp h
    obtain ⟨newRank, -, h⟩ := except_bind_ok.mp h
    obtain ⟨visits, -, h⟩ := except_bind_ok.mp h
    obtain ⟨total, htotal, h⟩ := except_bind_ok.mp h
    obtain ⟨order, -, h⟩ := except_bind_ok.mp h
    obtain rfl := Except.ok.inj h
    exact plus_fits htotal
  | remove k =>
    obtain ⟨slot, -, h⟩ := except_bind_ok.mp h
    obtain ⟨found, -, h⟩ := except_bind_ok.mp h
    obtain ⟨rank, -, h⟩ := except_bind_ok.mp h
    obtain ⟨path, -, h⟩ := except_bind_ok.mp h
    obtain ⟨visits, hvisits, h⟩ := except_bind_ok.mp h
    obtain ⟨order, -, h⟩ := except_bind_ok.mp h
    obtain rfl := Except.ok.inj h
    exact plus_fits hvisits
  | set k v =>
    obtain ⟨slot, -, h⟩ := except_bind_ok.mp h
    obtain rfl := Except.ok.inj h
    exact Nat.zero_le _

theorem record_visits {es : List (Edit K V)} (h : s.record es = .ok s') :
    s'.lastVisits = s.lastVisits := by
  obtain ⟨-, rfl⟩ := record_ok.mp h
  rfl

theorem each_fits (es : List (Edit K V)) (h : s.applyEach es visits = .ok s')
    (fits : visits ≤ maxId) : s'.lastVisits ≤ maxId := by
  induction es generalizing s visits with
  | nil =>
    obtain rfl := Except.ok.inj h
    exact fits
  | cons e es ih =>
    obtain ⟨t, -, h⟩ := except_bind_ok.mp h
    obtain ⟨total, htotal, h⟩ := except_bind_ok.mp h
    exact ih h (plus_fits htotal)

theorem built_fits (hs : Built s n) : s.lastVisits ≤ maxId := by
  induction hs with
  | empty hrun =>
    obtain ⟨e, he, -, -, -, hzero⟩ := empty_holds (K := K) (V := V)
    obtain rfl := Except.ok.inj (hrun.symm.trans he)
    omega
  | @step s s' n op hs hrun ih =>
    cases op with
    | setLocal k v => exact raw_fits (e := .set k v) hrun ih
    | applyRaw e => exact raw_fits hrun ih
    | insertBefore k v before =>
      obtain ⟨t, ht, hrec⟩ := except_bind_ok.mp hrun
      exact record_visits hrec ▸ raw_fits (e := .insertBefore k v before) ht ih
    | remove k =>
      obtain ⟨t, ht, hrec⟩ := except_bind_ok.mp hrun
      exact record_visits hrec ▸ raw_fits (e := .remove k) ht ih
    | set k v =>
      obtain ⟨t, ht, hrec⟩ := except_bind_ok.mp hrun
      exact record_visits hrec ▸ raw_fits (e := .set k v) ht ih
    | moveBefore k before =>
      obtain ⟨t, ht, hrec⟩ := except_bind_ok.mp hrun
      exact record_visits hrec ▸ raw_fits (e := .moveBefore k before) ht ih
    | apply e =>
      obtain ⟨t, ht, hrec⟩ := except_bind_ok.mp hrun
      exact record_visits hrec ▸ raw_fits ht ih
    | applyAll es =>
      obtain ⟨t, ht, hrec⟩ := except_bind_ok.mp hrun
      exact record_visits hrec ▸ each_fits es ht (Nat.zero_le _)
    | fromList entries =>
      obtain ⟨e, -, hrun⟩ := except_bind_ok.mp hrun
      obtain ⟨t, ht, hrec⟩ := except_bind_ok.mp hrun
      exact record_visits hrec ▸ each_fits (appends entries) ht (Nat.zero_le _)

theorem recorded {es : List (Edit K V)} (hs : Holds s l n)
    (h : (s.applyEach es 0 >>= fun t => t.record es) = .ok s') : Replays s s' := by
  have hrun : s.applyAll es = .ok s' := h
  rcases apply_each es hs 0 with (⟨t, l', hr, -, ht, hrev, -⟩ | ⟨e, hr, -⟩ | hspent) | ⟨-, hover⟩
  · rw [hr, ok_bind, record_ok] at h
    obtain ⟨hroom, rfl⟩ := h
    refine ⟨hrev, by simp only [hrev], rfl, if_pos hrev, fun r hr => ?_, ⟨_, hrun, ?_⟩⟩
    · exact ⟨_, if_neg fun heq => hr (heq.symm.trans hrev)⟩
    · exact ⟨_, to_list (holds_record ht), to_list (holds_record ht)⟩
  · rw [hr] at h
    cases h
  · have hspent := spent_bind (fun t => t.record es) hspent
    rw [h] at hspent
    cases hspent
  · rw [hover] at h
    cases h

theorem recorded_once {e : Edit K V} (hs : Holds s l n) (fits : s.lastVisits ≤ maxId)
    (h : s.apply e = .ok s') : Replays s s' := by
  obtain ⟨t, hr, hrec⟩ := except_bind_ok.mp h
  have ht : 0 + t.lastVisits ≤ maxId := (Nat.zero_add _).symm ▸ raw_fits hr fits
  have hrun : s.applyAll [e] = .ok s' := by
    rw [KeyedSeq.applyAll, KeyedSeq.applyEach, hr, ok_bind, plus_ok ht, ok_bind,
      KeyedSeq.applyEach, ok_bind, Nat.zero_add]
    exact hrec
  exact recorded hs hrun

theorem journal_replays (hs : Built s n) (op : Operation K V) (hbase : Base s op base)
    (h : perform s op = .ok s') : Replays base s' := by
  obtain ⟨l, hholds⟩ := built_holds hs
  have fits := built_fits hs
  cases op with
  | insertBefore k v before =>
    obtain rfl := hbase
    exact recorded_once (e := .insertBefore k v before) hholds fits h
  | remove k =>
    obtain rfl := hbase
    exact recorded_once (e := .remove k) hholds fits h
  | set k v =>
    obtain rfl := hbase
    exact recorded_once (e := .set k v) hholds fits h
  | moveBefore k before =>
    obtain rfl := hbase
    exact recorded_once (e := .moveBefore k before) hholds fits h
  | apply e =>
    obtain rfl := hbase
    exact recorded_once hholds fits h
  | applyAll es =>
    obtain rfl := hbase
    exact recorded hholds h
  | fromList entries =>
    obtain ⟨e, he, hempty, -⟩ := empty_holds (K := K) (V := V)
    obtain rfl := Except.ok.inj (he.symm.trans hbase)
    rw [perform, KeyedSeq.fromList, he, ok_bind] at h
    exact recorded hempty h
  | setLocal k v => exact hbase.elim
  | applyRaw e => exact hbase.elim

end Recorded

/-! A difference on plain lists: each wanted entry is brought to the front of what is left. -/
section Plain

variable {l l' whole : KeyedList K V} {done ys : List (K × V)} {k : K} {v : V}

def fronting (l : KeyedList K V) (target : K × V) : Edit K V :=
  match l.get target.1 with
  | none => .insertBefore target.1 target.2 (l.entries.head?.map Prod.fst)
  | some _ =>
    if l.entries.head?.map Prod.fst = some target.1 then .set target.1 target.2
    else .moveBefore target.1 (l.entries.head?.map Prod.fst)

omit [DecidableEq K] in
theorem done_apart (hwhole : whole.entries = done ++ l.entries) {x : K} (hx : x ∈ l.keys) :
    x ∉ done.map Prod.fst := by
  have distinct := whole.distinct
  rw [hwhole, List.map_append, List.nodup_append] at distinct
  exact fun hd => distinct.2.2 x hd x hx rfl

theorem insert_before_eq {before : Option K} (fresh : k ∉ l.keys) (hb : ∀ a ∈ before, a ∈ l.keys) :
    l.insertBefore k v before = .ok (l.place k v before fresh) := by
  rw [KeyedList.insertBefore, dif_neg fresh]
  cases before with
  | none => rfl
  | some a => exact if_pos (hb a rfl)

theorem move_before_eq {w : V} {a : K} (hk : l.get k = some w) (hne : a ≠ k) (ha : a ∈ l.keys) :
    l.moveBefore k (some a) = .ok ((l.erase k).place k w (some a) (l.not_mem_erase k)) := by
  rw [KeyedList.moveBefore, hk]
  simp only [if_neg hne, if_pos ha]

theorem away_filter {es : List (K × V)} (hk : k ∉ es.map Prod.fst) :
    es.filter (fun e => e.1 ≠ k) = es :=
  List.filter_eq_self.mpr fun e he => by simpa using ne_of_not_mem_keys hk e he

theorem fronting_applies (hwhole : whole.entries = done ++ l.entries)
    (hk : k ∉ done.map Prod.fst) : ∃ l₁ whole₁ w rest, l.apply (fronting l (k, v)) = .ok l₁ ∧
      whole.apply (fronting l (k, v)) = .ok whole₁ ∧ l₁.entries = (k, w) :: rest ∧
      whole₁.entries = done ++ l₁.entries ∧ rest = l.entries.filter fun e => e.1 ≠ k := by
  have inside {x : K} (hx : x ∈ l.keys) : x ∈ whole.keys := by
    rw [KeyedList.keys, hwhole, List.map_append, List.mem_append]
    exact .inr hx
  have head {a : K} (ha : a ∈ l.entries.head?.map Prod.fst) : a ∈ l.keys := by
    rw [← List.head?_map] at ha
    exact List.mem_of_mem_head? ha
  have outside {a : K} (ha : a ∈ l.entries.head?.map Prod.fst) : a ∉ done.map Prod.fst :=
    done_apart hwhole (head ha)
  unfold fronting
  cases hget : l.get k with
  | none =>
    have fresh : k ∉ l.keys := by
      rw [← get_is_some, hget]
      exact Bool.false_ne_true
    have fresh' : k ∉ whole.keys := by
      rw [KeyedList.keys, hwhole, List.map_append, List.mem_append, not_or]
      exact ⟨hk, fresh⟩
    have hl₁ : (l.place k v (l.entries.head?.map Prod.fst) fresh).entries =
        [] ++ (k, v) :: l.entries := place_entries fresh rfl (by simp) (List.head?_map ..)
    refine ⟨_, _, v, l.entries, insert_before_eq fresh fun a ha => head ha,
      insert_before_eq fresh' fun a ha => inside (head ha), hl₁, ?_, (away_filter fresh).symm⟩
    rw [hl₁, place_entries fresh' hwhole (fun a ha => outside ha) (List.head?_map ..)]
    rfl
  | some w =>
    obtain ⟨xs, ys, cut⟩ := get_eq_some_iff.mp hget
    obtain ⟨hxs, hys⟩ := cut_not_mem cut
    have hmem : k ∈ l.keys := mem_keys_iff.mpr ⟨w, xs, ys, cut⟩
    have hfilter : xs ++ ys = l.entries.filter fun e => e.1 ≠ k := by
      rw [cut, List.filter_append, List.filter_cons_of_neg (by simp), away_filter hxs,
        away_filter hys]
    have hcut : whole.entries = (done ++ xs) ++ (k, w) :: ys := by
      rw [hwhole, cut, List.append_assoc]
    simp only
    cases xs with
    | nil =>
      rw [if_pos (by rw [cut]; rfl)]
      refine ⟨_, _, v, ys, if_pos hmem, if_pos (inside hmem), adjust_entries cut _, ?_, hfilter⟩
      rw [adjust_entries cut, adjust_entries hcut, List.append_nil]
      rfl
    | cons x xs =>
      have hne : x.1 ≠ k := ne_of_not_mem_keys hxs x (by simp)
      have hhead : l.entries.head?.map Prod.fst = some x.1 := by
        rw [cut]
        rfl
      rw [hhead, if_neg (by simpa using hne)]
      have hx : x.1 ∈ l.keys := head (by rw [hhead]; rfl)
      have hwget : whole.get k = some w := get_eq_some_iff.mpr ⟨_, _, hcut⟩
      have hl := erase_entries cut
      have hl₁ : ((l.erase k).place k w (some x.1) (l.not_mem_erase k)).entries =
          [] ++ (k, w) :: (x :: xs ++ ys) :=
        place_entries (l.not_mem_erase k) hl (by simp) rfl
      refine ⟨_, _, w, x :: xs ++ ys, move_before_eq hget hne hx,
        move_before_eq hwget hne (inside hx), hl₁, ?_, hfilter⟩
      have hwhole₁ : (whole.erase k).entries = done ++ (x :: xs ++ ys) := by
        rw [erase_entries hcut, List.append_assoc]
      have hwhole₂ : ((whole.erase k).place k w (some x.1) (whole.not_mem_erase k)).entries =
          done ++ (k, w) :: (x :: xs ++ ys) := by
        refine place_entries (whole.not_mem_erase k) hwhole₁ ?_ rfl
        intro a ha
        obtain rfl : x.1 = a := by simpa using ha
        exact done_apart hwhole hx
      rw [hwhole₂, hl₁]
      rfl

theorem front_erased {w : V} {rest : List (K × V)} (hl : l.entries = (k, w) :: rest) :
    (l.erase k).entries = rest :=
  erase_entries (show l.entries = [] ++ (k, w) :: rest from hl)

theorem removes_left (hwhole : whole.entries = done ++ l.entries) :
    ∃ final, whole.applyAll (l.entries.map fun e => .remove e.1) = .ok final ∧
      final.entries = done := by
  generalize hes : l.entries = es at hwhole ⊢
  induction es generalizing whole l with
  | nil => exact ⟨whole, rfl, by simpa using hwhole⟩
  | cons e es ih =>
    have hmem : e.1 ∈ whole.keys := mem_keys_iff.mpr ⟨e.2, done, es, hwhole⟩
    obtain ⟨final, hrun, hfinal⟩ := ih (l := l.erase e.1) (front_erased hes)
      (show (whole.erase e.1).entries = done ++ es from erase_entries hwhole)
    refine ⟨final, ?_, hfinal⟩
    rw [List.map_cons, KeyedList.applyAll, KeyedList.apply, KeyedList.remove, if_pos hmem]
    exact hrun

end Plain

section Difference

variable [DecidableEq V] {s base : KeyedSeq K V} {l whole : KeyedList K V} {n : ℕ}
  {done desired : List (K × V)}

omit [DecidableEq V] in
theorem front_edit (hs : Holds s l n) (target : K × V) :
    s.frontEdit target l.entries = fronting l target := by
  rw [KeyedSeq.frontEdit, fronting, get_eq hs]
  cases l.get target.1 <;> rfl

omit [DecidableEq V] in
theorem consume_front {k : K} {v : V} {rest : List (K × V)} (hs : Holds s l n)
    (hl : l.entries = (k, v) :: rest) : ∃ slot order, s.keys.get k = some slot ∧
      (orderRemove s.order 0 : Answer K _) = .ok (order, slot) ∧
      Holds { s with
        order
        values := s.values.remove slot
        keys := s.keys.remove k } (l.erase k) n := by
  obtain ⟨h, t, hsound, hnode, -⟩ := hs
  obtain ⟨as, slot, bs, o', h', t', -, -, hkey, hlen, hrun, -, hcredit, hreset, hsound'⟩ :=
    take_out hsound (show l.entries = [] ++ (k, v) :: rest from hl)
  rw [hlen, List.length_nil] at hrun
  refine ⟨slot, o', hkey, hrun, h', t', hsound' s.lastVisits, ?_, hreset⟩
  simp only
  omega

omit [DecidableEq V] in
theorem raw_goes {e : Edit K V} {l' : KeyedList K V} (hs : Holds s l n) (slots : s.nextSlot ≤ n + 1)
    (room : n + 1 < maxId) (hl : l.apply e = .ok l') : ∃ s', s.applyRaw e = .ok s' ∧
      Holds s' l' (n + 1) ∧ s'.nextSlot ≤ n + 2 ∧ s'.revision = s.revision := by
  have few : insertions [e] ≤ 1 := List.countP_le_length
  rcases apply_raw hs e with ⟨s', l₁, hr, hp, hs', hrev, -, hnext⟩ | ⟨r, -, hp⟩ | hspent
  · obtain rfl := Except.ok.inj (hl.symm.trans hp)
    exact ⟨s', hr, hs', by omega, hrev⟩
  · cases hl.symm.trans hp
  · generalize s.applyRaw e = answer at hspent ⊢
    cases hspent <;> omega

/-- Differences never crash while ids last, and their journal turns one list into the
other. -/
theorem diff_entries (hs : Holds s l n) (slots : s.nextSlot ≤ n + 1) (room : n + 2 * desired.length < maxId)
    (hwhole : whole.entries = done ++ l.entries) (distinct : (desired.map Prod.fst).Nodup)
    (apart : ∀ e ∈ desired, e.1 ∉ done.map Prod.fst) (edits : List (Edit K V)) :
    ∃ journal final, s.diffEntries desired edits = .ok (edits ++ journal) ∧
      whole.applyAll journal = .ok final ∧ final.entries = done ++ desired ∧
      journal.length ≤ 2 * desired.length + l.entries.length := by
  induction desired generalizing s l n whole done edits with
  | nil =>
    obtain ⟨final, hrun, hfinal⟩ := removes_left hwhole
    refine ⟨_, final, ?_, hrun, by rw [hfinal, List.append_nil], by simp⟩
    rw [KeyedSeq.diffEntries, to_list hs]
    rfl
  | cons target desired ih =>
    obtain ⟨k, v⟩ := target
    rw [List.map_cons, List.nodup_cons] at distinct
    obtain ⟨l₁, whole₁, w, rest, hl, hw, hl₁, hwhole₁, hrest⟩ :=
      fronting_applies (v := v) hwhole (apart (k, v) (by simp))
    rw [List.length_cons] at room
    rw [KeyedSeq.diffEntries, to_list hs, ok_bind, front_edit hs]
    obtain ⟨s₁, hr, hs₁, slots₁, -⟩ := raw_goes hs slots (by omega) hl
    simp only [hr, crashing, ok_bind]
    have hfew : rest.length ≤ l.entries.length := by
      rw [hrest]
      exact List.length_filter_le ..
    -- Whichever way the value was settled, the entry is taken off and the rest follows.
    have finish {s₂ : KeyedSeq K V} {l₂ whole₂ : KeyedList K V} (hs₂ : Holds s₂ l₂ (n + 2))
        (slots₂ : s₂.nextSlot ≤ n + 3) (hl₂ : l₂.entries = (k, v) :: rest) (hwhole₂ : whole₂.entries = done ++ l₂.entries)
        (sofar : List (Edit K V)) : ∃ slot order journal final, s₂.keys.get k = some slot ∧
          (orderRemove s₂.order 0 : Answer K _) = .ok (order, slot) ∧
          KeyedSeq.diffEntries { s₂ with
            order
            values := s₂.values.remove slot
            keys := s₂.keys.remove k } desired sofar = .ok (sofar ++ journal) ∧
          whole₂.applyAll journal = .ok final ∧ final.entries = done ++ (k, v) :: desired ∧
          journal.length ≤ 2 * desired.length + rest.length := by
      obtain ⟨slot, order, hkey, hrun, hs₃⟩ := consume_front hs₂ hl₂
      have hrest₂ := front_erased hl₂
      obtain ⟨journal, final, hdiff, happly, hfinal, hlen⟩ := ih hs₃
        slots₂ (by omega) (show whole₂.entries = (done ++ [(k, v)]) ++ (l₂.erase k).entries by
          rw [hwhole₂, hl₂, hrest₂, List.append_assoc]
          rfl) distinct.2
        (fun e he => by
          rw [List.map_append, List.mem_append, not_or]
          refine ⟨apart e (by simp [he]), fun hm => distinct.1 ?_⟩
          obtain rfl : e.1 = k := by simpa using hm
          exact List.mem_map.mpr ⟨e, he, rfl⟩) sofar
      rw [hrest₂] at hlen
      exact ⟨slot, order, journal, final, hkey, hrun, hdiff, happly, by simpa using hfinal, hlen⟩
    have hget₁ : l₁.get k = some w := get_eq_some_iff.mpr ⟨[], rest, hl₁⟩
    by_cases hv : s₁.get k = .ok v
    · obtain rfl : w = v := by
        rw [get_eq hs₁, hget₁] at hv
        exact Except.ok.inj hv
      obtain ⟨slot, order, journal, final, hkey, hrun, hdiff, happly, hfinal, hlen⟩ :=
        finish (holds_mono hs₁ (Nat.le_succ _)) (slots₁.trans (Nat.le_succ _)) hl₁ hwhole₁ (edits ++ [fronting l (k, w)])
      refine ⟨fronting l (k, w) :: journal, final, ?_, ?_, hfinal, ?_⟩
      · simp only [if_pos hv, pure_eq_ok, ok_bind, hkey, or_crash_some, hrun, hdiff,
          List.append_assoc, List.singleton_append]
      · rw [KeyedList.applyAll, hw, ok_bind, happly]
      · simp only [List.length_cons]
        omega
    · have hmem : k ∈ l₁.keys := mem_keys_iff.mpr ⟨w, [], rest, hl₁⟩
      have hset : l₁.set k v = .ok (l₁.adjust k fun _ => v) := if_pos hmem
      obtain ⟨s₂, hr₂, hs₂, slots₂, -⟩ := raw_goes (e := .set k v) hs₁ slots₁ (by omega) hset
      have hcut₁ : whole₁.entries = done ++ (k, w) :: rest := by rw [hwhole₁, hl₁]
      have hl₂ : (l₁.adjust k fun _ => v).entries = [] ++ (k, v) :: rest :=
        adjust_entries (show l₁.entries = [] ++ (k, w) :: rest from hl₁) _
      have hmem' : k ∈ whole₁.keys := mem_keys_iff.mpr ⟨w, done, rest, hcut₁⟩
      obtain ⟨slot, order, journal, final, hkey, hrun, hdiff, happly, hfinal, hlen⟩ :=
        finish hs₂ slots₂ hl₂ (show (whole₁.adjust k fun _ => v).entries = _ by
          rw [adjust_entries hcut₁, hl₂]
          rfl) (edits ++ [fronting l (k, v)] ++ [.set k v])
      refine ⟨fronting l (k, v) :: .set k v :: journal, final, ?_, ?_, hfinal, ?_⟩
      · rw [KeyedSeq.applyRaw] at hr₂
        simp only [if_neg hv, hr₂, or_crash_some, pure_eq_ok, ok_bind, hkey, hrun]
        rw [hdiff]
        simp only [List.append_assoc, List.cons_append, List.nil_append]
      · rw [KeyedList.applyAll, hw, ok_bind, KeyedList.applyAll]
        rw [show whole₁.apply (.set k v) = .ok (whole₁.adjust k fun _ => v) from if_pos hmem',
          ok_bind, happly]
      · simp only [List.length_cons]
        omega

/-- What a difference promises: it ends, and its journal turns one collection into the
other, unless the nodes it visits are too many to count. -/
def Converts (before after : KeyedSeq K V) : Prop :=
  ∃ journal, before.diff after = .ok journal ∧
    ((∃ s entries, before.applyAll journal = .ok s ∧ after.toList = .ok entries ∧
        s.toList = .ok entries) ∨
      maxId < (visitsOf before journal).sum ∧ before.applyAll journal = .error overflowed)

theorem diff_converts {after : KeyedSeq K V} {l' : KeyedList K V} (hs : Holds s l n)
    (hcounts : s.revision ≤ n ∧ s.nextSlot ≤ n + 1) (hafter : after.toList = .ok l'.entries)
    (room : n + 2 * l'.entries.length + l.entries.length < maxId) : Converts s after := by
  obtain ⟨journal, final, hdiff, happly, hfinal, hlen⟩ := diff_entries hs hcounts.2 (by omega)
    (show l.entries = [] ++ l.entries from rfl) l'.distinct (fun _ _ hm => by cases hm) []
  refine ⟨journal, by rw [KeyedSeq.diff, hafter, ok_bind, hdiff, List.nil_append], ?_⟩
  have few : insertions journal ≤ journal.length := List.countP_le_length
  have answer : Answers s (.applyAll journal) (n + journal.length) (s.applyAll journal)
      (l.applyAll journal) := answers_each rfl hs le_rfl
  rcases answer with ⟨t, l₁, hr, hp, ht, -⟩ | ⟨e, -, hp⟩ | out
  · obtain rfl := Except.ok.inj (happly.symm.trans hp)
    exact .inl ⟨t, l'.entries, hr, hafter, by rw [to_list ht, hfinal, List.nil_append]⟩
  · cases happly.symm.trans hp
  · right
    generalize s.applyAll journal = answer at out ⊢
    cases out with
    | slots few' =>
      simp only [Operation.journal] at few'
      omega
    | visits many => exact ⟨many, rfl⟩
    | revisions _ hover => omega
    | edits many => omega

end Difference

section Journals

variable [DecidableEq V] {s : KeyedSeq K V} {n : ℕ}

/-- A refused journal is refused by the list the collection stays, unless a counter ran out. -/
def RefusesAsList (s : KeyedSeq K V) (n : ℕ) : Prop :=
  ∃ l, Reads s l ∧ ∀ es failure, s.applyAll es = .error failure →
    (∃ e, l.applyAll es = .error e ∧ failure = .error (refusal e)) ∨
      RunsOut s (.applyAll es) (n + (es.length + 1)) (.error failure)

/-- Journals of a collection: the one it carries replays on its base, a failing one leaves
it as it was, and a difference to any other collection is one, while ids last. -/
theorem journals_replay (hs : Built s n) :
    (∀ op s' base, perform s op = .ok s' → Base s op base → Replays base s') ∧
    RefusesAsList s n ∧
    ∀ (after : KeyedSeq K V) m, Built after m → ∀ entries wanted, s.toList = .ok entries →
      after.toList = .ok wanted → n + 2 * wanted.length + entries.length < maxId →
      Converts s after := by
  obtain ⟨l, hholds⟩ := built_holds hs
  refine ⟨fun op s' base h hbase => journal_replays hs op hbase h,
    ⟨l, holds_reads hholds, fun es failure h => ?_⟩,
    fun after m ha entries wanted he hw room => ?_⟩
  · have h : perform s (.applyAll es) = .error failure := h
    obtain ⟨base, rfl, ⟨t, -, hr, -⟩ | ⟨e, hr, hp⟩ | out⟩ := perform_answers hholds (.applyAll es)
    · cases h.symm.trans hr
    · exact .inl ⟨e, hp, Except.error.inj (h.symm.trans hr)⟩
    · exact .inr (h ▸ out)
  obtain ⟨l', hholds'⟩ := built_holds ha
  obtain rfl := Except.ok.inj ((to_list hholds).symm.trans he)
  obtain rfl := Except.ok.inj ((to_list hholds').symm.trans hw)
  exact diff_converts hholds (built_counts hs) hw room

theorem two_entries_replay : ∃ s : KeyedSeq ℕ ℕ, KeyedSeq.fromList [(1, 10), (2, 20)] = .ok s ∧
    (∀ op s' base, perform s op = .ok s' → Base s op base → Replays base s') ∧
    RefusesAsList s 3 ∧
    ∀ (after : KeyedSeq ℕ ℕ) m, Built after m → ∀ entries wanted, s.toList = .ok entries →
      after.toList = .ok wanted → 3 + 2 * wanted.length + entries.length < maxId →
      Converts s after := by
  obtain ⟨s, hrun, hs⟩ := built_from_list (K := ℕ) (V := ℕ) [(1, 10), (2, 20)] (by decide +kernel)
  exact ⟨s, hrun, journals_replay (n := 3) hs⟩

omit [DecidableEq V] in
theorem holds_emptied {m : ℕ} (hs : Holds s KeyedList.empty m) :
    Holds s KeyedList.empty 0 ∧ s.order.nextNode ≤ 2 := by
  obtain ⟨h, t, hsound, -, hreset⟩ := hs
  have hfull := hreset (List.map_eq_nil_iff.mp hsound.listed)
  exact ⟨⟨h, t, hsound, by omega, hreset⟩, by omega⟩

omit [DecidableEq V] in
theorem append_visits {s' : KeyedSeq K V} {l : KeyedList K V} {k : K} {v : V} (hs : Holds s l n)
    (h : s.insertBeforeRaw k v none = .ok s') : s'.lastVisits ≤ 2 * s.order.nextNode := by
  obtain ⟨_, t, hsound, -⟩ := hs
  have cut : t.slots = t.slots ++ [] := (List.append_nil _).symm
  have anchored : Anchored s [] none := rfl
  obtain ⟨short, hshort, hvisits⟩ := placement_visits hsound.ordered cut anchored
  rw [KeyedSeq.insertBeforeRaw, placement_index hsound.ordered cut anchored] at h
  split at h
  · cases h
  split at h
  · cases h
  rw [ok_bind, hvisits] at h
  obtain ⟨visits, hplus, h⟩ := except_bind_ok.mp h
  obtain ⟨order, -, h⟩ := except_bind_ok.mp h
  obtain rfl := Except.ok.inj h
  by_cases hfits : 0 + short ≤ maxId
  · obtain rfl := Except.ok.inj ((plus_ok hfits).symm.trans hplus)
    simpa using hshort
  · cases (plus_over hfits).symm.trans hplus

/-- An entry that comes and goes in one journal. -/
def blink : List (Edit ℕ ℕ) := [.insertBefore 0 0 none, .remove 0]

theorem blink_visits {s : KeyedSeq ℕ ℕ} (hs : Holds s KeyedList.empty 0) :
    (visitsOf s blink).sum ≤ 8 := by
  obtain ⟨-, small⟩ := holds_emptied hs
  have hinsert : Follows s [.insertBefore 0 0 none] 1 (s.insertBeforeRaw 0 0 none)
      (KeyedList.empty.insertBefore 0 0 none) := insert_raw hs
  rw [blink, visitsOf, KeyedSeq.applyRaw]
  rcases hinsert with ⟨s₁, l₁, hr₁, hp₁, hs₁, -⟩ | ⟨e, hr₁, -⟩ | hspent
  · obtain rfl := Except.ok.inj hp₁
    have few := append_visits hs hr₁
    obtain ⟨h, t, -, hcredit, -⟩ := id hs₁
    rw [hr₁]
    rcases remove_listed (k := 0) hs₁ (mem_keys_iff.mpr ⟨0, [], [], rfl⟩) with
      ⟨s₂, hr₂, -, -, -, -, few₂⟩ | ⟨-, hr₂⟩
    · simp only [visitsOf, KeyedSeq.applyRaw, hr₂, List.sum_cons, List.sum_nil]
      omega
    · simp only [visitsOf, KeyedSeq.applyRaw, hr₂, List.sum_cons, List.sum_nil]
      omega
  · rw [hr₁]
    exact Nat.zero_le _
  · generalize s.insertBeforeRaw 0 0 none = answer at hspent ⊢
    cases hspent <;> exact Nat.zero_le _

/-- An empty collection spends a slot and a revision each time, and nothing else. -/
theorem blink_spends {s : KeyedSeq ℕ ℕ} (hs : Holds s KeyedList.empty 0)
    (slots : s.nextSlot < maxId) (room : s.revision < maxId) :
    ∃ s', perform s (.applyAll blink) = .ok s' ∧ Holds s' KeyedList.empty 0 ∧
      s'.nextSlot = s.nextSlot + 1 ∧ s'.revision = s.revision + 1 := by
  have hplain : ∃ l : KeyedList ℕ ℕ, KeyedList.empty.applyAll blink = .ok l ∧ l.entries = [] :=
    ⟨_, rfl, rfl⟩
  obtain ⟨l, hl, hnil⟩ := hplain
  obtain rfl : l = KeyedList.empty := KeyedList.ext hnil
  have small : 8 < maxId := by decide
  have answer : Answers s (.applyAll blink) 2 (perform s (.applyAll blink))
      (KeyedList.empty.applyAll blink) := answers_each rfl hs le_rfl
  rcases answer with ⟨s', l', hr, hp, hs', hrev, hnext⟩ | ⟨e, -, hp⟩ | out
  · obtain rfl := Except.ok.inj (hl.symm.trans hp)
    exact ⟨s', hr, (holds_emptied hs').1, hnext, hrev⟩
  · cases hl.symm.trans hp
  · have few := blink_visits hs
    have one : insertions blink = 1 := rfl
    generalize perform s (.applyAll blink) = answer at out
    cases out with
    | slots few' =>
      simp only [Operation.journal] at few'
      omega
    | visits many =>
      simp only [Operation.journal] at many
      omega
    | revisions _ hover => omega
    | edits many => omega

theorem slots_spent (more : ℕ) (room : more < maxId) : ∃ (s : KeyedSeq ℕ ℕ) (n : ℕ), Built s n ∧
    Holds s KeyedList.empty 0 ∧ s.nextSlot = more + 1 ∧ s.revision = more := by
  induction more with
  | zero =>
    obtain ⟨e, he, hholds, hzero, hone, -⟩ := empty_holds (K := ℕ) (V := ℕ)
    exact ⟨e, 0, .empty he, hholds, hone, hzero⟩
  | succ more ih =>
    obtain ⟨s, n, hb, hs, hslots, hrev⟩ := ih (by omega)
    obtain ⟨s', hrun, hs', hslots', hrev'⟩ := blink_spends hs (by omega) (by omega)
    exact ⟨s', _, .step _ hb hrun, hs', by omega, by omega⟩

/-- Without a slot left, a difference that inserts crashes. -/
theorem diff_out_of_slots : ∃ (before after : KeyedSeq ℕ ℕ) (n m : ℕ), Built before n ∧
    Built after m ∧ before.diff after =
      .error (.panic "KeyedSeq diff emitted an invalid order edit") := by
  obtain ⟨before, n, hb, hs, hslots, -⟩ := slots_spent (maxId - 1) (by decide)
  have hfull : before.nextSlot = maxId := hslots
  obtain ⟨after, hafter, ha⟩ := built_from_list (K := ℕ) (V := ℕ) [(1, 10)] (by decide +kernel)
  have hlist : (KeyedSeq.fromList [(1, 10)] >>= fun s => s.toList : Answer ℕ (List (ℕ × ℕ))) =
      .ok [(1, 10)] := by decide +kernel
  rw [hafter, ok_bind] at hlist
  refine ⟨before, after, n, _, hb, ha, ?_⟩
  have hmissing : before.insertBeforeRaw 1 10 none = .error (.error .slotExhausted) := by
    obtain ⟨h, t, hsound, -⟩ := id hs
    have hkey := mt (key_listed (k := 1) hsound).mpr (by simp [KeyedList.keys, KeyedList.empty])
    rw [KeyedSeq.insertBeforeRaw, if_neg hkey, if_pos hfull]
  rw [KeyedSeq.diff, hlist, ok_bind, KeyedSeq.diffEntries, to_list hs, ok_bind, front_edit hs]
  have hedit : fronting KeyedList.empty (1, 10) = Edit.insertBefore 1 10 none := rfl
  simp only [hedit, KeyedSeq.applyRaw, hmissing, crashing, error_bind]

end Journals

end KeyedSeqJournals
