import RocGui.KeyedSeqLists

/-! Collections built from the empty one: what their tables hold, and the list they are. -/
namespace KeyedSeqRuns

open FiniteMaps Methods KeyedLists OrderTables OrderTrees OrderShapes KeyedSeqs KeyedSeqLists RankTree

variable {K V : Type} [DecidableEq K]

inductive Operation (K V : Type) where
  | insertBefore (key : K) (value : V) (before : Option K)
  | remove (key : K)
  | set (key : K) (value : V)
  | moveBefore (key : K) (before : Option K)
  | apply (edit : Edit K V)
  | applyAll (edits : List (Edit K V))
  | fromList (entries : List (K × V))
  | setLocal (key : K) (value : V)
  | applyRaw (edit : Edit K V)
  deriving DecidableEq

def perform (s : KeyedSeq K V) : Operation K V → Answer K (KeyedSeq K V)
  | .insertBefore key value before => s.insertBefore key value before
  | .remove key => s.remove key
  | .set key value => s.set key value
  | .moveBefore key before => s.moveBefore key before
  | .apply edit => s.apply edit
  | .applyAll edits => s.applyAll edits
  | .fromList entries => KeyedSeq.fromList entries
  | .setLocal key value => s.setLocal key value
  | .applyRaw edit => s.applyRaw edit

def appends (entries : List (K × V)) : List (Edit K V) :=
  entries.map fun entry => .insertBefore entry.1 entry.2 none

/-- The same on a plain list. -/
def performPlain (l : KeyedList K V) : Operation K V → Except (Refusal K) (KeyedList K V)
  | .insertBefore key value before => l.insertBefore key value before
  | .remove key => l.remove key
  | .set key value | .setLocal key value => l.set key value
  | .moveBefore key before => l.moveBefore key before
  | .apply edit | .applyRaw edit => l.apply edit
  | .applyAll edits => l.applyAll edits
  | .fromList entries => KeyedList.empty.applyAll (appends entries)

/-- The edits of an operation, whether it records them or not. -/
def Operation.journal : Operation K V → List (Edit K V)
  | .insertBefore key value before => [.insertBefore key value before]
  | .remove key => [.remove key]
  | .set key value | .setLocal key value => [.set key value]
  | .moveBefore key before => [.moveBefore key before]
  | .apply edit | .applyRaw edit => [edit]
  | .applyAll edits => edits
  | .fromList entries => appends entries

def Operation.records : Operation K V → Bool
  | .setLocal .. | .applyRaw .. => false
  | _ => true

def Starts (s : KeyedSeq K V) : Operation K V → KeyedSeq K V → Prop
  | .fromList _, base => KeyedSeq.empty = .ok base
  | _, base => base = s

def Operation.edits : Operation K V → ℕ
  | .applyAll edits => edits.length + 1
  | .fromList entries => entries.length + 1
  | _ => 1

/-- Collections built from the empty one, with the edits it took. -/
inductive Built : KeyedSeq K V → ℕ → Prop where
  | empty {s : KeyedSeq K V} : KeyedSeq.empty = .ok s → Built s 0
  | step {s s' : KeyedSeq K V} {n : ℕ} (operation : Operation K V) :
      Built s n → perform s operation = .ok s' → Built s' (n + operation.edits)

section Operations

variable {s s' : KeyedSeq K V} {l : KeyedList K V} {n : ℕ}

theorem record_ok {es : List (Edit K V)} : s.record es = .ok s' ↔ s.revision ≠ maxId ∧
    { s with revision := s.revision + 1, transition := ⟨s.revision, s.revision + 1, es⟩ } = s' := by
  rw [KeyedSeq.record]
  split <;> simp_all

theorem holds_record {revision : ℕ} {transition : Transition K V} (hs : Holds s l n) :
    Holds { s with revision, transition } l n := by
  obtain ⟨h, t, hsound, hnode, hreset⟩ := hs
  exact ⟨h, t, ⟨hsound.ordered, hsound.listed, hsound.keyed, hsound.held, hsound.below,
    hsound.first⟩, hnode, hreset⟩

/-- What an operation answers when a counter runs out: the slots, the visited nodes or the
revisions, or, once as many edits were made as there are integers, the ids of the nodes. -/
inductive RunsOut (base : KeyedSeq K V) (op : Operation K V) (spent : ℕ) :
    Answer K (KeyedSeq K V) → Prop
  | slots : maxId < base.nextSlot + insertions op.journal →
      RunsOut base op spent (.error (.error .slotExhausted))
  | visits : maxId < (visitsOf base op.journal).sum → RunsOut base op spent (.error overflowed)
  | revisions : op.records = true → base.revision = maxId → RunsOut base op spent (.error overflowed)
  | edits {failure : Failure (Error K)} : maxId ≤ spent →
      failure = exhausted ∨ failure = overflowed → RunsOut base op spent (.error failure)

def Answers (base : KeyedSeq K V) (op : Operation K V) (spent : ℕ) (r : Answer K (KeyedSeq K V))
    (plain : Except (Refusal K) (KeyedList K V)) : Prop :=
  (∃ s' l', r = .ok s' ∧ plain = .ok l' ∧ Holds s' l' spent ∧
    s'.revision = base.revision + op.records.toNat ∧
    s'.nextSlot = base.nextSlot + insertions op.journal) ∨
  (∃ e, r = .error (.error (refusal e)) ∧ plain = .error e) ∨ RunsOut base op spent r

variable {base : KeyedSeq K V} {op : Operation K V} {spent m : ℕ} {r : Answer K (KeyedSeq K V)}
  {plain : Except (Refusal K) (KeyedList K V)}

theorem spent_out (h : Spent base op.journal spent r) : RunsOut base op spent r := by
  cases h with
  | slots few => exact .slots few
  | edits many failed => exact .edits many failed

theorem follows_mono {es : List (Edit K V)} (hf : Follows base es spent r plain) (hle : spent ≤ m) :
    Follows base es m r plain := by
  rcases hf with ⟨s', l', hr, hp, hs', same⟩ | refused | hspent
  · exact .inl ⟨s', l', hr, hp, holds_mono hs' hle, same⟩
  · exact .inr (.inl refused)
  · refine .inr (.inr ?_)
    cases hspent with
    | slots few => exact .slots few
    | edits many failed => exact .edits (many.trans hle) failed

theorem answers_raw (hop : op.records = false) (hf : Follows base op.journal spent r plain) :
    Answers base op spent r plain := by
  rcases hf with ⟨s', l', hr, hp, hs', hrev, -, hnext⟩ | refused | hspent
  · exact .inl ⟨s', l', hr, hp, hs', by rw [hop, hrev]; rfl, hnext⟩
  · exact .inr (.inl refused)
  · exact .inr (.inr (spent_out hspent))

theorem answers_record (hop : op.records = true) (hf : Follows base op.journal spent r plain)
    (es : List (Edit K V)) : Answers base op spent (r >>= fun s => s.record es) plain := by
  rcases hf with ⟨s', l', hr, hp, hs', hrev, -, hnext⟩ | ⟨e, hr, hp⟩ | hspent
  · rw [hr, ok_bind, KeyedSeq.record]
    by_cases hover : s'.revision = maxId
    · rw [if_pos hover]
      exact .inr (.inr (.revisions hop (hrev.symm.trans hover)))
    · rw [if_neg hover]
      refine .inl ⟨_, l', rfl, hp, holds_record hs', ?_, hnext⟩
      rw [hop, ← hrev]
      rfl
  · rw [hr]
    exact .inr (.inl ⟨e, rfl, hp⟩)
  · exact .inr (.inr (spent_out (spent_bind _ hspent)))

theorem answers_each (hop : op.records = true) (hs : Holds base l m) (hle : m + op.journal.length ≤ spent) :
    Answers base op spent (base.applyEach op.journal 0 >>= fun s => s.record op.journal)
      (l.applyAll op.journal) := by
  rcases apply_each op.journal hs 0 with hf | ⟨hmany, hover⟩
  · exact answers_record hop (follows_mono hf hle) _
  · rw [hover]
    exact .inr (.inr (.visits (by rwa [Nat.zero_add] at hmany)))

theorem perform_answers (hs : Holds s l n) (op : Operation K V) :
    ∃ base, Starts s op base ∧
      Answers base op (n + op.edits) (perform s op) (performPlain l op) := by
  cases op with
  | insertBefore k v before =>
    exact ⟨s, rfl, answers_record rfl (apply_raw hs (.insertBefore k v before)) _⟩
  | remove k => exact ⟨s, rfl, answers_record rfl (apply_raw hs (.remove k)) _⟩
  | set k v => exact ⟨s, rfl, answers_record rfl (apply_raw hs (.set k v)) _⟩
  | moveBefore k before =>
    exact ⟨s, rfl, answers_record rfl (apply_raw hs (.moveBefore k before)) _⟩
  | apply e => exact ⟨s, rfl, answers_record rfl (apply_raw hs e) _⟩
  | setLocal k v => exact ⟨s, rfl, answers_raw rfl (apply_raw hs (.set k v))⟩
  | applyRaw e => exact ⟨s, rfl, answers_raw rfl (apply_raw hs e)⟩
  | applyAll es =>
    exact ⟨s, rfl, answers_each rfl hs (Nat.add_le_add_left (Nat.le_succ _) n)⟩
  | fromList entries =>
    obtain ⟨e, hrun, he, -⟩ := empty_holds (K := K) (V := V)
    refine ⟨e, hrun, ?_⟩
    rw [perform, KeyedSeq.fromList, hrun, ok_bind]
    refine answers_each rfl he ?_
    simp only [Operation.journal, Operation.edits, appends, List.length_map]
    omega

theorem out_failed (h : RunsOut base op spent r) (s' : KeyedSeq K V) : r ≠ .ok s' := by
  rintro rfl
  cases h

theorem built_holds (hs : Built s n) : ∃ l, Holds s l n := by
  induction hs with
  | empty hrun =>
    obtain ⟨e, he, hholds, -⟩ := empty_holds (K := K) (V := V)
    obtain rfl := Except.ok.inj (hrun.symm.trans he)
    exact ⟨_, hholds⟩
  | @step s s' n op hs hrun ih =>
    obtain ⟨l, hholds⟩ := ih
    obtain ⟨base, -, ⟨t, l', hr, -, hs', -⟩ | ⟨e, hr, -⟩ | out⟩ := perform_answers hholds op
    · obtain rfl := Except.ok.inj (hrun.symm.trans hr)
      exact ⟨l', hs'⟩
    · cases hrun.symm.trans hr
    · exact absurd hrun (out_failed out s')

omit [DecidableEq K] in
theorem edits_cover (op : Operation K V) :
    insertions op.journal ≤ op.edits ∧ op.records.toNat ≤ op.edits := by
  have hcount : insertions op.journal ≤ op.journal.length := List.countP_le_length
  cases op <;> simp only [Operation.journal, Operation.edits, Operation.records, appends,
    List.length_map, List.length_singleton, Bool.toNat_true, Bool.toNat_false] at hcount ⊢ <;> omega

theorem starts_cases (hbase : Starts s op base) : base = s ∨ KeyedSeq.empty = .ok base := by
  cases op with
  | fromList entries => exact .inr hbase
  | insertBefore | remove | set | moveBefore | apply | applyAll | setLocal | applyRaw =>
    exact .inl hbase

/-- No more revisions and slots are handed out than edits were made. -/
theorem built_counts (hs : Built s n) : s.revision ≤ n ∧ s.nextSlot ≤ n + 1 := by
  induction hs with
  | empty hrun =>
    obtain ⟨e, he, -, hzero, hone, -⟩ := empty_holds (K := K) (V := V)
    obtain rfl := Except.ok.inj (hrun.symm.trans he)
    omega
  | @step s s' n op hs hrun ih =>
    obtain ⟨l, hholds⟩ := built_holds hs
    obtain ⟨base, hbase, ⟨t, l', hr, -, -, hrev, hnext⟩ | ⟨e, hr, -⟩ | out⟩ :=
      perform_answers hholds op
    · obtain rfl := Except.ok.inj (hrun.symm.trans hr)
      obtain ⟨hinsertions, hrecords⟩ := edits_cover op
      rcases starts_cases hbase with rfl | hempty
      · omega
      · obtain ⟨e, he, -, hzero, hone, -⟩ := empty_holds (K := K) (V := V)
        obtain rfl := Except.ok.inj (hempty.symm.trans he)
        omega
    · cases hrun.symm.trans hr
    · exact absurd hrun (out_failed out s')

end Operations

/-! The tables of an order, node by node. -/
section Nodes

variable {h : ℕ}

/-- A tree is itself or somewhere in another. -/
inductive Within : {a b : ℕ} → RankTree a → RankTree b → Prop where
  | self {a : ℕ} (t : RankTree a) : Within t t
  | kid {a b : ℕ} {u : RankTree a} {k : RankTree b} {id : ℕ} {kids : List (RankTree b)} :
      k ∈ kids → Within u k → Within u (branch id kids)

/-- What the tables of an order hold when they describe a tree. -/
structure OrderValid (o : RowsOrder) (t : RankTree h) : Prop where
  root : o.root = t.id
  top : parentOf o o.root = some .root
  entries : ∀ {a : ℕ} {u : RankTree a}, Within u t → node o u.id = some u.entry
  leaves : ∀ {id : ℕ} {ss : List ℕ}, Within (leaf id ss) t →
    ss.length ≤ 32 ∧ (ss = [] → t.slots = [] ∧ id = o.root)
  branches : ∀ {a id : ℕ} {kids : List (RankTree a)}, Within (branch id kids) t →
    0 < kids.length ∧ kids.length ≤ 32
  parents : ∀ {a id : ℕ} {kids : List (RankTree a)}, Within (branch id kids) t →
    ∀ i k, kids[i]? = some k → parentOf o k.id = some (.child id i)
  slotLeaf : ∀ slot id, leafOf o slot = some id ↔ ∃ ss, Within (leaf id ss) t ∧ slot ∈ ss
  distinct : t.slots.Nodup
  live : t.ids.Nodup
  free : o.freeNodes.Nodup
  apart : ∀ id ∈ o.freeNodes, id ∉ t.ids
  allocated : ∀ id, id ∈ t.ids ∨ id ∈ o.freeNodes ↔ 0 < id ∧ id < o.nextNode

variable {o : RowsOrder} {t : RankTree h}

theorem within_stored {a : ℕ} {u : RankTree a} (hu : Within u t) (ht : Stored o t) :
    Stored o u ∧ (a = h ∧ HEq u t ∨ u.slots ≠ []) := by
  induction hu with
  | self t => exact ⟨ht, .inl ⟨rfl, HEq.rfl⟩⟩
  | @kid b u k id kids hk hu ih =>
    obtain ⟨-, -, -, -, -, hkids⟩ := stored_branch.mp ht
    obtain ⟨hstored, heq | hne⟩ := ih (hkids k hk).2
    · obtain ⟨rfl, heq⟩ := heq
      exact ⟨hstored, .inr (eq_of_heq heq ▸ (hkids k hk).1)⟩
    · exact ⟨hstored, .inr hne⟩

theorem within_leaf {s : ℕ} (hs : s ∈ t.slots) : ∃ id ss, Within (leaf id ss) t ∧ s ∈ ss := by
  induction h with
  | zero =>
    obtain ⟨id, ss, rfl⟩ := eq_leaf t
    exact ⟨id, ss, .self _, hs⟩
  | succ h ih =>
    obtain ⟨id, kids, rfl⟩ := eq_branch t
    obtain ⟨k, hk, hs⟩ := List.mem_flatMap.mp hs
    obtain ⟨id', ss, hw, hss⟩ := ih hs
    exact ⟨id', ss, .kid hk hw, hss⟩

theorem order_valid (ord : Ordered o t) : OrderValid o t := by
  have distinct := pooled_distinct ord.pooled
  have hparts := Multiset.nodup_add.mp (Multiset.nodup_cons.mp distinct).2
  have hleaf {id : ℕ} {ss : List ℕ} (hw : Within (leaf id ss) t) : Stored o (leaf id ss) :=
    (within_stored hw ord.stored).1
  constructor
  case root => exact ord.root.symm
  case top => exact ord.top
  case entries => exact fun hw => (stored_node (within_stored hw ord.stored).1).2
  case leaves =>
    intro id ss hw
    refine ⟨(stored_leaf.mp (hleaf hw)).2.2.1, ?_⟩
    rintro rfl
    rcases (within_stored hw ord.stored).2 with ⟨rfl, heq⟩ | hne
    · obtain rfl := eq_of_heq heq
      exact ⟨rfl, ord.root⟩
    · exact (hne rfl).elim
  case branches =>
    intro a id kids hw
    obtain ⟨-, -, hne, hlen, -, -⟩ := stored_branch.mp (within_stored hw ord.stored).1
    exact ⟨List.length_pos_of_ne_nil hne, hlen⟩
  case parents =>
    intro a id kids hw
    exact (stored_branch.mp (within_stored hw ord.stored).1).2.2.2.2.1
  case slotLeaf =>
    intro slot id
    constructor
    · intro hl
      have hmem : slot ∈ t.slots := by
        by_contra hnot
        rw [ord.leaves slot hnot] at hl
        cases hl
      obtain ⟨id', ss, hw, hss⟩ := within_leaf hmem
      have := ((stored_leaf.mp (hleaf hw)).2.2.2 slot hss).2
      rw [hl] at this
      exact ⟨ss, Option.some.inj this ▸ hw, hss⟩
    · rintro ⟨ss, hw, hss⟩
      exact ((stored_leaf.mp (hleaf hw)).2.2.2 slot hss).2
  case distinct => exact ord.distinct
  case live => exact hparts.1
  case free => exact hparts.2.1
  case apart => exact fun id hf hl => Multiset.disjoint_left.mp hparts.2.2 hl hf
  case allocated =>
    intro id
    have hmem : id ∈ 0 ::ₘ (t.ids + (o.freeNodes : Multiset ℕ)) ↔ id < o.nextNode := by
      rw [ord.pooled.handed, Multiset.mem_range]
    rw [Multiset.mem_cons, Multiset.mem_add, Multiset.mem_coe] at hmem
    constructor
    · intro h
      refine ⟨Nat.pos_of_ne_zero ?_, hmem.mp (.inr h)⟩
      rintro rfl
      exact (Multiset.nodup_cons.mp distinct).1 (Multiset.mem_add.mpr h)
    · rintro ⟨hpos, hlt⟩
      exact (hmem.mpr hlt).resolve_left (by omega)

end Nodes

section Invariant

variable {s : KeyedSeq K V} {n : ℕ}

/-- The tables of any collection describe one tree of the live slots. -/
theorem built_valid (hs : Built s n) : ∃ h, ∃ t : RankTree h, OrderValid s.order t ∧
    (∀ slot, (s.values.get slot).isSome ↔ slot ∈ t.slots) ∧
    ∀ key slot, s.keys.get key = some slot ↔ ∃ value, s.values.get slot = some (key, value) := by
  obtain ⟨l, h, t, hsound, -⟩ := built_holds hs
  exact ⟨h, t, order_valid hsound.ordered, hsound.held, hsound.keyed⟩

theorem built_from_list (entries : List (K × V))
    (h : (KeyedSeq.fromList entries : Answer K _).isOk = true) :
    ∃ s, KeyedSeq.fromList entries = .ok s ∧ Built s (entries.length + 1) := by
  obtain ⟨e, he, -⟩ := empty_holds (K := K) (V := V)
  cases hs : (KeyedSeq.fromList entries : Answer K _) with
  | error failure =>
    rw [hs] at h
    cases h
  | ok s => exact ⟨s, rfl, Nat.zero_add (entries.length + 1) ▸ .step (.fromList entries) (.empty he) hs⟩

theorem two_entries_valid : ∃ s : KeyedSeq ℕ ℕ, KeyedSeq.fromList [(1, 10), (2, 20)] = .ok s ∧
    ∃ h, ∃ t : RankTree h, OrderValid s.order t ∧
      (∀ slot, (s.values.get slot).isSome ↔ slot ∈ t.slots) ∧
      ∀ key slot, s.keys.get key = some slot ↔ ∃ value, s.values.get slot = some (key, value) := by
  obtain ⟨s, hrun, hs⟩ := built_from_list (K := ℕ) (V := ℕ) [(1, 10), (2, 20)]
    (by decide +kernel)
  exact ⟨s, hrun, built_valid hs⟩

end Invariant

/-! Collections refine plain lists. -/
section Refinement

variable {s s' : KeyedSeq K V} {l : KeyedList K V} {n : ℕ}

def nextKey (key : K) : List (K × V) → Option (Option K)
  | [] => none
  | entry :: entries =>
    if entry.1 = key then some (entries.head?.map Prod.fst) else nextKey key entries

theorem next_key_cut {xs ys : List (K × V)} {k : K} {v : V} (hk : k ∉ xs.map Prod.fst) :
    nextKey k (xs ++ (k, v) :: ys) = some (ys.head?.map Prod.fst) := by
  induction xs with
  | nil => exact if_pos rfl
  | cons x xs ih =>
    rw [List.map_cons, List.mem_cons, not_or] at hk
    rw [List.cons_append, nextKey, if_neg (Ne.symm hk.1), ih hk.2]

theorem next_key_absent {es : List (K × V)} {k : K} (hk : k ∉ es.map Prod.fst) :
    nextKey k es = none := by
  induction es with
  | nil => rfl
  | cons e es ih =>
    rw [List.map_cons, List.mem_cons, not_or] at hk
    rw [nextKey, if_neg (Ne.symm hk.1), ih hk.2]

structure Reads (s : KeyedSeq K V) (l : KeyedList K V) : Prop where
  list : s.toList = .ok l.entries
  len : s.len = .ok l.entries.length
  get : ∀ k, s.get k = match l.get k with
    | some v => .ok v
    | none => .error (.error (.missingKey k))
  after : ∀ k, s.placementAfter k = match nextKey k l.entries with
    | some next => .ok next
    | none => .error (.error (.missingKey k))

theorem holds_reads (hs : Holds s l n) : Reads s l where
  list := to_list hs
  len := len_eq hs
  get := get_eq hs
  after k := by
    by_cases hk : k ∈ l.keys
    · obtain ⟨v, xs, ys, cut⟩ := mem_keys_iff.mp hk
      rw [placement_after hs cut, cut, next_key_cut (cut_not_mem cut).1]
    · obtain ⟨h, t, hsound, -⟩ := hs
      rw [next_key_absent hk, KeyedSeq.placementAfter, slot_of hsound, if_neg hk]
      rfl

/-- The operation does what it does to the plain list, or refuses with the same error. -/
def Refines (s : KeyedSeq K V) (l : KeyedList K V) (op : Operation K V) : Prop :=
  match performPlain l op with
  | .ok l' => ∃ s', perform s op = .ok s' ∧ Reads s' l'
  | .error e => perform s op = .error (.error (refusal e))

/-- Snapshots, each beside the plain list that the same operations make, and the edits it took.
Any of them may be operated on, and all are kept. -/
inductive Versions : List (KeyedSeq K V × KeyedList K V) → ℕ → Prop where
  | empty {s : KeyedSeq K V} : KeyedSeq.empty = .ok s → Versions [(s, KeyedList.empty)] 0
  | grown {versions : List (KeyedSeq K V × KeyedList K V)} {n : ℕ} {s s' : KeyedSeq K V}
      {l l' : KeyedList K V} (op : Operation K V) : Versions versions n → (s, l) ∈ versions →
      perform s op = .ok s' → performPlain l op = .ok l' →
      Versions (versions ++ [(s', l')]) (n + op.edits)

theorem versions_hold {versions : List (KeyedSeq K V × KeyedList K V)} (hs : Versions versions n) :
    ∀ version ∈ versions, Holds version.1 version.2 n := by
  induction hs with
  | empty hrun =>
    obtain ⟨e, he, hholds, -⟩ := empty_holds (K := K) (V := V)
    obtain rfl := Except.ok.inj (hrun.symm.trans he)
    simpa using hholds
  | @grown versions n s s' l l' op hs hmem hrun hplain ih =>
    intro version hversion
    rcases List.mem_append.mp hversion with old | new
    · exact holds_mono (ih version old) (Nat.le_add_right ..)
    · obtain rfl := List.mem_singleton.mp new
      obtain ⟨base, -, ⟨t, l₁, hr, hp, ht, -⟩ | ⟨e, hr, -⟩ | out⟩ :=
        perform_answers (ih (s, l) hmem) op
      · obtain rfl := Except.ok.inj (hrun.symm.trans hr)
        obtain rfl := Except.ok.inj (hplain.symm.trans hp)
        exact ht
      · cases hrun.symm.trans hr
      · exact absurd hrun (out_failed out s')

theorem set_same {k : K} {v : V} (hs : Built s n) (hlist : s.toList = .ok [(k, v)])
    (h : perform s (.set k v) = .ok s') : s'.toList = .ok [(k, v)] := by
  obtain ⟨l, hholds⟩ := built_holds hs
  have hentries : l.entries = [] ++ (k, v) :: [] :=
    Except.ok.inj ((to_list hholds).symm.trans hlist)
  obtain ⟨base, -, ⟨t, l', hr, hp, hs', -⟩ | ⟨e, hr, -⟩ | out⟩ :=
    perform_answers hholds (.set k v)
  · obtain rfl := Except.ok.inj (h.symm.trans hr)
    have hset : l.set k v = .ok (l.adjust k fun _ => v) :=
      if_pos (mem_keys_iff.mpr ⟨v, [], [], hentries⟩)
    obtain rfl := Except.ok.inj (hset.symm.trans hp)
    rw [to_list hs', adjust_entries hentries]
    rfl
  · cases h.symm.trans hr
  · exact absurd h (out_failed out s')

/-- Setting a listed key over and over uses up revisions and no slots. -/
theorem sets_revise {k : K} {v : V} (hs : Built s n)
    (hk : (s.keys.get k).isSome) (more : ℕ) (room : s.revision + more ≤ maxId) :
    ∃ (s' : KeyedSeq K V) (m : ℕ), Built s' m ∧ s'.revision = s.revision + more ∧ s'.nextSlot = s.nextSlot ∧
      (s'.keys.get k).isSome ∧ (s.toList = .ok [(k, v)] → s'.toList = .ok [(k, v)]) := by
  induction more with
  | zero => exact ⟨s, n, hs, rfl, rfl, hk, id⟩
  | succ more ih =>
    obtain ⟨s₁, m, hb, hrev, hslot, hkey, hsame⟩ := ih (by omega)
    obtain ⟨slot, hslot'⟩ := Option.isSome_iff_exists.mp hkey
    have hrun : perform s₁ (.set k v) = .ok { s₁ with
        values := s₁.values.set slot (k, v)
        lastVisits := 0
        revision := s₁.revision + 1
        transition := ⟨s₁.revision, s₁.revision + 1, [.set k v]⟩ } := by
      rw [perform, KeyedSeq.set, KeyedSeq.setRaw, KeyedSeq.slotOf, hslot']
      simp only [ok_bind, pure_eq_ok, KeyedSeq.record]
      rw [if_neg (by omega)]
    exact ⟨_, _, .step _ hb hrun, by simp only; omega, hslot, hkey,
      fun hlist => set_same hb (hsame hlist) hrun⟩

end Refinement

end KeyedSeqRuns
