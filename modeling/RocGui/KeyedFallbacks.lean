import RocGui.KeyedSeqJournals

/-! The snapshot fallback of a keyed column: steps that bring the resident items to a list
of keys, and their replay. -/
namespace KeyedFallbacks

open FiniteMaps Methods KeyedLists OrderTables OrderTrees OrderShapes KeyedSeqs KeyedSeqLists
open KeyedSeqRuns KeyedSeqJournals

/-- A complete digest. -/
abbrev Key := Vector UInt8 32

inductive KeyedStep (E : Type) where
  | insert (key : Key) (elem : E) (placement : Option Key)
  | move (key : Key) (placement : Option Key)
  | remove (key : Key)
  | set (key : Key) (elem : E)
  deriving DecidableEq

variable {E : Type}

/-- The first eight digest bytes address a bucket. -/
def keyBucket (key : Key) : ℕ :=
  (key.toList.take 8).foldl (fun value byte => value * 256 + byte.toNat) 0

def survivors (keys : List Key) : FiniteMap ℕ (List Key) :=
  keys.foldl (fun index key =>
    index.set (keyBucket key) ((index.get (keyBucket key)).getD [] ++ [key])) ∅

/-- Full keys settle collisions. -/
def present (index : FiniteMap ℕ (List Key)) (key : Key) : Bool :=
  ((index.get (keyBucket key)).getD []).any (· = key)

/-- A resident key moves and is set, another is inserted. -/
def placeOne (old : KeyedSeq Key ℕ) (key : Key) (child : E) (placement : Option Key) :
    List (KeyedStep E) :=
  match old.get key with
  | .ok _ => [.move key placement, .set key child]
  | .error _ => [.insert key child placement]

/-- Places the keys from the last to the first, each in front of the one before. -/
def placeSteps (old : KeyedSeq Key ℕ) : List (Key × E) → Option Key → List (KeyedStep E)
  | [], _ => []
  | (key, child) :: rest, placement =>
    placeOne old key child placement ++ placeSteps old rest (some key)

def keyedFallbackSteps (old : KeyedSeq Key ℕ) (keys : List Key) (children : List E) :
    Answer Key (List (KeyedStep E)) := do
  let index := survivors keys
  let resident ← old.toList
  if keys.length ≠ children.length then
    .error (.panic "keyed fallback key count differs from children")
  else
    return (resident.filter fun entry => !present index entry.1).map (fun entry => .remove entry.1) ++
      placeSteps old (keys.zip children).reverse none

/-- What a replay works on: the resident items, the boundaries the runtime knows, and the
item instances registered in the scope of the column. -/
structure Replay where
  items : KeyedSeq Key ℕ
  boundaries : Finset ℕ
  live : FiniteMap Key ℕ
  seen : Finset Key
  nextInstance : ℕ
  retired : List ℕ
  created : List (Key × ℕ)

def orPanic {α : Type} (message : String) : Answer Key α → Answer Key α
  | .ok a => .ok a
  | .error (.error _) => .error (.panic message)
  | .error failure => .error failure

/-- The instance of an item: the one live under its key, or a new one. -/
def resolve (r : Replay) (key : Key) : Answer Key (ℕ × Replay) :=
  if key ∈ r.seen then
    .error (.panic "duplicate component key in one structural parent scope")
  else
    match r.live.get key with
    | some instanceId => .ok (instanceId, { r with seen := insert key r.seen })
    | none =>
      if r.nextInstance = maxId then .error (.panic "component instance space exhausted")
      else .ok (r.nextInstance, { r with
        seen := insert key r.seen
        nextInstance := r.nextInstance + 1 })

/-- Lowering an item's element: its own boundary, then as many nested components. -/
def lowerItem (nested : E → ℕ) (r : Replay) (key : Key) (elem : E) :
    Answer Key (ℕ × Replay) := do
  let (instanceId, r) ← resolve r key
  if maxId < r.nextInstance + nested elem then
    .error (.panic "component instance space exhausted")
  else
    return (instanceId, { r with
      boundaries := insert instanceId r.boundaries
      nextInstance := r.nextInstance + nested elem })

def replayStep (nested : E → ℕ) (r : Replay) : KeyedStep E → Answer Key Replay
  | .move key placement => do
    let items ← orPanic "keyed move target missing" (r.items.moveBefore key placement)
    return { r with items }
  | .remove key => do
    let instanceId ← orPanic "keyed remove target missing" (r.items.get key)
    if instanceId ∉ r.boundaries then
      .error (.panic "missing retired component")
    else
      let items ← orPanic "keyed removal target missing" (r.items.remove key)
      return { r with
        items
        boundaries := r.boundaries.erase instanceId
        retired := r.retired ++ [instanceId] }
  | .insert key elem placement => do
    let (instanceId, r) ← lowerItem nested r key elem
    let items ← orPanic "keyed insertion failed" (r.items.insertBefore key instanceId placement)
    return { r with items, created := r.created ++ [(key, instanceId)] }
  | .set key elem => do
    let old ← orPanic "keyed set target missing" (r.items.get key)
    let (instanceId, r) ← lowerItem nested r key elem
    if instanceId ≠ old then .error (.panic "keyed set changed item boundary identity")
    else return r

def replay (nested : E → ℕ) (r : Replay) (steps : List (KeyedStep E)) : Answer Key Replay :=
  steps.foldlM (replayStep nested) r

theorem present_iff (keys : List Key) (key : Key) : present (survivors keys) key = true ↔ key ∈ keys := by
  have bucket (index : FiniteMap ℕ (List Key)) (b : ℕ) : ((keys.foldl (fun index key =>
      index.set (keyBucket key) ((index.get (keyBucket key)).getD [] ++ [key])) index).get b).getD [] =
        (index.get b).getD [] ++ keys.filter fun k => keyBucket k = b := by
    induction keys generalizing index with
    | nil => simp
    | cons k keys ih =>
      rw [List.foldl_cons, ih, FiniteMap.get_set, List.filter_cons]
      by_cases hb : keyBucket k = b
      · simp [hb]
      · simp [hb, Ne.symm hb]
  rw [present, survivors, bucket]
  simp

section Replay

variable {nested : E → ℕ} {r : Replay} {l l' : KeyedList Key ℕ} {m : ℕ}

/-- A collection that holds these items, with room for more edits. -/
structure Items (s : KeyedSeq Key ℕ) (l : KeyedList Key ℕ) (m : ℕ) : Prop where
  holds : Holds s l m
  revision : s.revision ≤ m
  slots : s.nextSlot ≤ m + 1

theorem edit_ok {s : KeyedSeq Key ℕ} {e : Edit Key ℕ} (hs : Items s l m) (room : m + 1 < maxId)
    (hp : l.apply e = .ok l') : ∃ s', s.apply e = .ok s' ∧ Items s' l' (m + 1) := by
  obtain ⟨t, hr, ht, hnext, hrev⟩ := raw_goes hs.holds hs.slots room hp
  have counts := hs.revision
  have hrun : s.apply e = .ok { t with
      revision := t.revision + 1
      transition := ⟨t.revision, t.revision + 1, [e]⟩ } := by
    rw [KeyedSeq.apply, hr, ok_bind]
    exact record_ok.mpr ⟨by omega, rfl⟩
  exact ⟨_, hrun, holds_record ht, by simp only; omega, hnext⟩

variable (nested) in
theorem remove_items {gone : List (Key × ℕ)} (hs : Items r.items l m)
    (room : m + gone.length < maxId) (listed : ∀ e ∈ gone, e ∈ l.entries)
    (distinct : (gone.map Prod.fst).Nodup) (instances : (gone.map Prod.snd).Nodup)
    (known : ∀ e ∈ gone, e.2 ∈ r.boundaries) : ∃ items l', replay nested r
      (gone.map fun e => .remove e.1) = .ok { r with
        items
        boundaries := r.boundaries \ (gone.map Prod.snd).toFinset
        retired := r.retired ++ gone.map Prod.snd } ∧
      Items items l' (m + gone.length) ∧
      l'.entries = l.entries.filter fun e => e.1 ∉ gone.map Prod.fst := by
  induction gone generalizing r l m with
  | nil =>
    refine ⟨r.items, l, ?_, hs, by simp⟩
    rw [replay, List.map_nil, List.foldlM_nil]
    simp
  | cons e gone ih =>
    rw [List.map_cons, List.nodup_cons] at distinct instances
    rw [List.length_cons] at room
    have he : l.get e.1 = some e.2 := mem_entries_iff.mp (listed e (by simp))
    have hk : e.1 ∈ l.keys := get_is_some.mp (by rw [he]; rfl)
    obtain ⟨s', hrun, hs'⟩ := edit_ok (e := .remove e.1) hs (by omega)
      (show l.apply (.remove e.1) = .ok (l.erase e.1) from if_pos hk)
    have hstep : replayStep nested r (.remove e.1) = .ok { r with
        items := s'
        boundaries := r.boundaries.erase e.2
        retired := r.retired ++ [e.2] } := by
      have hremove : r.items.remove e.1 = .ok s' := hrun
      rw [replayStep, get_eq hs.holds, he]
      simp only [orPanic, ok_bind, not_not.mpr (known e (by simp)), if_false, hremove, pure_eq_ok]
    have apart {e' : Key × ℕ} (he' : e' ∈ gone) : e'.1 ≠ e.1 := fun heq =>
      distinct.1 (heq ▸ List.mem_map_of_mem he')
    obtain ⟨items, l', hreplay, hitems, hentries⟩ := ih (r := { r with
        items := s'
        boundaries := r.boundaries.erase e.2
        retired := r.retired ++ [e.2] }) hs' (by omega) (fun e' he' => by
          rw [KeyedList.erase, List.mem_filter]
          exact ⟨listed e' (by simp [he']), by simpa using apart he'⟩) distinct.2 instances.2
      (fun e' he' => Finset.mem_erase.mpr ⟨fun heq => instances.1 (heq ▸ List.mem_map_of_mem he'),
        known e' (by simp [he'])⟩)
    refine ⟨items, l', ?_, ?_, ?_⟩
    · rw [replay, List.map_cons, List.foldlM_cons, hstep, ok_bind]
      refine hreplay.trans ?_
      congr 2
      · ext x
        simp only [Finset.mem_sdiff, Finset.mem_erase, List.mem_toFinset, List.map_cons,
          List.mem_cons, not_or]
        tauto
      · simp
    · rwa [List.length_cons, Nat.add_comm gone.length, ← Nat.add_assoc]
    · rw [hentries, KeyedList.erase, List.filter_filter]
      refine List.filter_congr fun e' _ => ?_
      simp only [List.map_cons, List.mem_cons]
      by_cases h : e'.1 = e.1 <;> simp [h]

theorem lower_live {key : Key} {elem : E} {i : ℕ} (unseen : key ∉ r.seen)
    (hlive : r.live.get key = some i) (room : r.nextInstance + nested elem ≤ maxId) :
    lowerItem nested r key elem = .ok (i, { r with
      seen := insert key r.seen
      boundaries := insert i r.boundaries
      nextInstance := r.nextInstance + nested elem }) := by
  rw [lowerItem, resolve, if_neg unseen, hlive]
  simp only [ok_bind]
  rw [if_neg (by omega), pure_eq_ok]

theorem lower_new {key : Key} {elem : E} (unseen : key ∉ r.seen) (hlive : r.live.get key = none)
    (room : r.nextInstance + 1 + nested elem ≤ maxId) :
    lowerItem nested r key elem = .ok (r.nextInstance, { r with
      seen := insert key r.seen
      boundaries := insert r.nextInstance r.boundaries
      nextInstance := r.nextInstance + 1 + nested elem }) := by
  rw [lowerItem, resolve, if_neg unseen, hlive]
  simp only
  rw [if_neg (show r.nextInstance ≠ maxId by omega)]
  simp only [ok_bind]
  rw [if_neg (by omega), pure_eq_ok]

theorem move_before_placed {k : Key} {w : ℕ} {placement : Option Key} (hk : l.get k = some w)
    (hp : ∀ a ∈ placement, a ≠ k ∧ a ∈ l.keys) :
    l.moveBefore k placement = .ok ((l.erase k).place k w placement (l.not_mem_erase k)) := by
  cases placement with
  | none => rw [KeyedList.moveBefore, hk]
  | some a => exact move_before_eq hk (hp a rfl).1 (hp a rfl).2

variable {rest behind : List (Key × ℕ)}

theorem move_item {xs ys : List (Key × ℕ)} {k : Key} {i : ℕ} (hs : Items r.items l m)
    (room : m + 1 < maxId) (cut : l.entries = (xs ++ (k, i) :: ys) ++ behind) :
    ∃ items l', replayStep nested r (.move k (behind.head?.map Prod.fst)) = .ok { r with items } ∧
      Items items l' (m + 1) ∧ l'.entries = (xs ++ ys) ++ (k, i) :: behind := by
  have cut' : l.entries = xs ++ (k, i) :: (ys ++ behind) := by rw [cut]; simp
  have apart := (cut_not_mem cut').2
  rw [List.map_append, List.mem_append, not_or] at apart
  have placed {a : Key} (ha : a ∈ behind.head?.map Prod.fst) : a ∈ behind.map Prod.fst := by
    rw [← List.head?_map] at ha
    exact List.mem_of_mem_head? ha
  have hp : l.moveBefore k (behind.head?.map Prod.fst) = .ok _ :=
    move_before_placed (get_eq_some_iff.mpr ⟨xs, _, cut'⟩) fun a ha => ⟨?_, ?_⟩
  · obtain ⟨items, hrun, hitems⟩ := edit_ok (e := .moveBefore k _) hs room hp
    have hmove : r.items.moveBefore k (behind.head?.map Prod.fst) = .ok items := hrun
    refine ⟨items, _, ?_, hitems, ?_⟩
    · rw [replayStep, hmove]
      rfl
    · have hcut : (l.erase k).entries = (xs ++ ys) ++ behind := by
        rw [erase_entries cut', List.append_assoc]
      refine place_entries (l.not_mem_erase k) hcut (fun a ha hmem => ?_) (List.head?_map ..)
      have distinct := (l.erase k).distinct
      rw [hcut, List.map_append, List.nodup_append] at distinct
      exact distinct.2.2 a hmem a (placed ha) rfl
  · exact fun heq => apart.2 (heq ▸ placed ha)
  · rw [KeyedList.keys, cut, List.map_append, List.mem_append]
    exact .inr (placed ha)

theorem insert_item {k : Key} {i : ℕ} {s : KeyedSeq Key ℕ} (hs : Items s l m)
    (room : m + 1 < maxId) (cut : l.entries = rest ++ behind) (fresh : k ∉ l.keys) :
    ∃ items l', s.insertBefore k i (behind.head?.map Prod.fst) = .ok items ∧
      Items items l' (m + 1) ∧ l'.entries = rest ++ (k, i) :: behind := by
  have placed {a : Key} (ha : a ∈ behind.head?.map Prod.fst) : a ∈ behind.map Prod.fst := by
    rw [← List.head?_map] at ha
    exact List.mem_of_mem_head? ha
  have hp : l.insertBefore k i (behind.head?.map Prod.fst) = .ok _ :=
    insert_before_eq fresh fun a ha => by
      rw [KeyedList.keys, cut, List.map_append, List.mem_append]
      exact .inr (placed ha)
  obtain ⟨items, hrun, hitems⟩ := edit_ok (e := .insertBefore k i _) hs room hp
  refine ⟨items, _, hrun, hitems, place_entries fresh cut (fun a ha hmem => ?_) (List.head?_map ..)⟩
  have distinct := l.distinct
  rw [cut, List.map_append, List.nodup_append] at distinct
  exact distinct.2.2 a hmem a (placed ha) rfl


/-- Midway through the placing: the items not yet placed stand in front of the placed ones,
and the keys to come are resident exactly where an item is left for them. -/
structure Placing (old : KeyedSeq Key ℕ) (todo : List (Key × E)) (rest behind : List (Key × ℕ))
    (r : Replay) (l : KeyedList Key ℕ) (m : ℕ) : Prop where
  items : Items r.items l m
  cut : l.entries = rest ++ behind
  distinct : (todo.map Prod.fst).Nodup
  wanted : ∀ e ∈ rest, e.1 ∈ todo.map Prod.fst
  unplaced : ∀ k ∈ todo.map Prod.fst, k ∉ behind.map Prod.fst
  unseen : ∀ k ∈ todo.map Prod.fst, k ∉ r.seen
  resident : ∀ k ∈ todo.map Prod.fst, ∀ i, old.get k = .ok i ↔ (k, i) ∈ rest
  live : ∀ k ∈ todo.map Prod.fst, ∀ i, r.live.get k = some i ↔ (k, i) ∈ rest

structure PlacedOne (r r' : Replay) (rest rest' : List (Key × ℕ)) (k : Key) (i : ℕ) (cost : ℕ) :
    Prop where
  grows : r.nextInstance ≤ r'.nextInstance
  bound : r'.nextInstance ≤ r.nextInstance + 1 + cost
  retired : r'.retired = r.retired
  kept : (∃ xs ys, rest = xs ++ (k, i) :: ys ∧ rest' = xs ++ ys ∧ r'.created = r.created) ∨
    (k ∉ rest.map Prod.fst ∧ rest' = rest ∧ i = r.nextInstance ∧ i < r'.nextInstance ∧
      r'.created = r.created ++ [(k, i)])

variable {old : KeyedSeq Key ℕ} {todo : List (Key × E)} {k : Key} {c : E}

variable (nested) in
theorem place_resident {i : ℕ} (h : Placing old ((k, c) :: todo) rest behind r l m)
    (room : m + 1 < maxId) (ids : r.nextInstance + 1 + nested c ≤ maxId) (hi : (k, i) ∈ rest) :
    ∃ r' l' rest', replay nested r (placeOne old k c (behind.head?.map Prod.fst)) = .ok r' ∧
      Placing old todo rest' ((k, i) :: behind) r' l' (m + 1) ∧
      PlacedOne r r' rest rest' k i (nested c) := by
  have hk : k ∈ ((k, c) :: todo).map Prod.fst := by simp
  have distinct := h.distinct
  rw [List.map_cons, List.nodup_cons] at distinct
  obtain ⟨xs, ys, rfl⟩ := List.append_of_mem hi
  obtain ⟨items, l', hmove, hitems, hentries⟩ := move_item h.items room h.cut
  have hold := (h.resident k hk i).mpr hi
  have hget : items.get k = .ok i := by
    rw [get_eq hitems.holds, get_eq_some_iff.mpr ⟨_, _, hentries⟩]
  have hset : replayStep nested { r with items } (.set k c) = .ok { r with
      items
      seen := insert k r.seen
      boundaries := insert i r.boundaries
      nextInstance := r.nextInstance + nested c } := by
    have hlower := lower_live (r := { r with items }) (h.unseen k hk) ((h.live k hk i).mpr hi)
      (show r.nextInstance + nested c ≤ maxId by omega)
    rw [replayStep, show ({ r with items } : Replay).items = items from rfl, hget]
    simp only [orPanic, ok_bind, hlower]
    rw [if_neg (not_not.mpr rfl), pure_eq_ok]
  have rest_ne {e : Key × ℕ} (he : e ∈ xs ++ ys) : e.1 ≠ k := by
    have hcut : l.entries = xs ++ (k, i) :: (ys ++ behind) := by rw [h.cut]; simp
    obtain ⟨hxs, hys⟩ := cut_not_mem hcut
    rw [List.map_append, List.mem_append, not_or] at hys
    exact (List.mem_append.mp he).elim (ne_of_not_mem_keys hxs e) (ne_of_not_mem_keys hys.1 e)
  have later {k' : Key} (hk' : k' ∈ todo.map Prod.fst) (i' : ℕ) :
      (k', i') ∈ xs ++ (k, i) :: ys ↔ (k', i') ∈ xs ++ ys := by
    have hne : k' ≠ k := fun heq => distinct.1 (heq ▸ hk')
    simp [hne]
  refine ⟨{ r with
    items
    seen := insert k r.seen
    boundaries := insert i r.boundaries
    nextInstance := r.nextInstance + nested c }, l', xs ++ ys, ?_, ?_, ?_⟩
  · rw [placeOne, hold, replay, List.foldlM_cons, hmove, ok_bind, List.foldlM_cons, hset, ok_bind]
    rfl
  · exact {
      items := hitems
      cut := hentries
      distinct := distinct.2
      wanted := fun e he => by
        have hmem := h.wanted e (by
          rw [List.mem_append, List.mem_cons]
          exact (List.mem_append.mp he).imp_right Or.inr)
        rw [List.map_cons, List.mem_cons] at hmem
        exact hmem.resolve_left (rest_ne he)
      unplaced := fun k' hk' => by
        rw [List.map_cons, List.mem_cons, not_or]
        exact ⟨fun heq => distinct.1 (heq ▸ hk'), h.unplaced k' (List.mem_cons_of_mem _ hk')⟩
      unseen := fun k' hk' => by
        rw [Finset.mem_insert, not_or]
        exact ⟨fun heq => distinct.1 (heq ▸ hk'), h.unseen k' (List.mem_cons_of_mem _ hk')⟩
      resident := fun k' hk' i' =>
        (h.resident k' (List.mem_cons_of_mem _ hk') i').trans (later hk' i')
      live := fun k' hk' i' => (h.live k' (List.mem_cons_of_mem _ hk') i').trans (later hk' i') }
  · exact {
      grows := Nat.le_add_right ..
      bound := by simp only; omega
      retired := rfl
      kept := .inl ⟨xs, ys, rfl, rfl, rfl⟩ }

variable (nested) in
theorem place_new (h : Placing old ((k, c) :: todo) rest behind r l m) (room : m + 1 < maxId)
    (ids : r.nextInstance + 1 + nested c ≤ maxId) (hk : k ∉ rest.map Prod.fst) :
    ∃ r' l', replay nested r (placeOne old k c (behind.head?.map Prod.fst)) = .ok r' ∧
      Placing old todo rest ((k, r.nextInstance) :: behind) r' l' (m + 1) ∧
      PlacedOne r r' rest rest k r.nextInstance (nested c) := by
  have hmem : k ∈ ((k, c) :: todo).map Prod.fst := by simp
  have distinct := h.distinct
  rw [List.map_cons, List.nodup_cons] at distinct
  have absent (i : ℕ) : (k, i) ∉ rest := fun hi => hk (List.mem_map_of_mem hi)
  have fresh : k ∉ l.keys := by
    rw [KeyedList.keys, h.cut, List.map_append, List.mem_append, not_or]
    exact ⟨hk, h.unplaced k hmem⟩
  have hold : ∃ e, old.get k = .error e := by
    cases hget : old.get k with
    | ok i => exact absurd ((h.resident k hmem i).mp hget) (absent i)
    | error e => exact ⟨e, rfl⟩
  have hlive : r.live.get k = none := by
    cases hget : r.live.get k with
    | some i => exact absurd ((h.live k hmem i).mp hget) (absent i)
    | none => rfl
  obtain ⟨e, hold⟩ := hold
  obtain ⟨items, l', hinsert, hitems, hentries⟩ :=
    insert_item (i := r.nextInstance) h.items room h.cut fresh
  refine ⟨{ r with
    items
    seen := insert k r.seen
    boundaries := insert r.nextInstance r.boundaries
    nextInstance := r.nextInstance + 1 + nested c
    created := r.created ++ [(k, r.nextInstance)] }, l', ?_, ?_, ?_⟩
  · rw [placeOne, hold, replay, List.foldlM_cons, replayStep,
      lower_new (h.unseen k hmem) hlive ids]
    simp only [ok_bind, hinsert, orPanic, pure_eq_ok]
    rfl
  · exact {
      items := hitems
      cut := hentries
      distinct := distinct.2
      wanted := fun e he => by
        have hmem := h.wanted e he
        rw [List.map_cons, List.mem_cons] at hmem
        exact hmem.resolve_left fun heq => hk (List.mem_map.mpr ⟨e, he, heq⟩)
      unplaced := fun k' hk' => by
        rw [List.map_cons, List.mem_cons, not_or]
        exact ⟨fun heq => distinct.1 (heq ▸ hk'), h.unplaced k' (List.mem_cons_of_mem _ hk')⟩
      unseen := fun k' hk' => by
        rw [Finset.mem_insert, not_or]
        exact ⟨fun heq => distinct.1 (heq ▸ hk'), h.unseen k' (List.mem_cons_of_mem _ hk')⟩
      resident := fun k' hk' => h.resident k' (List.mem_cons_of_mem _ hk')
      live := fun k' hk' => h.live k' (List.mem_cons_of_mem _ hk') }
  · exact {
      grows := by simp only; omega
      bound := le_rfl
      retired := rfl
      kept := .inr ⟨hk, rfl, rfl, by simp only; omega, rfl⟩ }

structure PlacedAll (todo : List (Key × E)) (rest behind : List (Key × ℕ)) (r r' : Replay)
    (l' : KeyedList Key ℕ) (placed fresh : List (Key × ℕ)) : Prop where
  entries : l'.entries = placed ++ behind
  keys : placed.map Prod.fst = (todo.map Prod.fst).reverse
  kept : ∀ e ∈ rest, e ∈ placed
  retired : r'.retired = r.retired
  created : r'.created = r.created ++ fresh
  once : fresh.map Prod.fst = (todo.map Prod.fst).filter fun k => k ∉ rest.map Prod.fst
  mounted : ∀ e ∈ fresh, e ∈ placed
  new : ∀ e ∈ fresh, r.nextInstance ≤ e.2
  apart : (fresh.map Prod.snd).Nodup

variable (nested) in
theorem place_run (h : Placing old todo rest behind r l m) (room : m + todo.length < maxId)
    (ids : r.nextInstance + todo.length + (todo.map fun e => nested e.2).sum ≤ maxId) :
    ∃ r' l' placed fresh,
      replay nested r (placeSteps old todo (behind.head?.map Prod.fst)) = .ok r' ∧
      Items r'.items l' (m + todo.length) ∧ PlacedAll todo rest behind r r' l' placed fresh := by
  induction todo generalizing rest behind r l m with
  | nil =>
    have hrest : rest = [] := List.eq_nil_iff_forall_not_mem.mpr fun e he => by
      simpa using h.wanted e he
    subst hrest
    exact ⟨r, l, [], [], rfl, h.items, by
      constructor <;> simp [h.cut]⟩
  | cons t todo ih =>
    obtain ⟨k, c⟩ := t
    rw [List.length_cons] at room ids
    rw [List.map_cons, List.sum_cons] at ids
    have hc : nested (k, c).2 = nested c := rfl
    have one : ∃ r₁ l₁ rest₁ i,
        replay nested r (placeOne old k c (behind.head?.map Prod.fst)) = .ok r₁ ∧
        Placing old todo rest₁ ((k, i) :: behind) r₁ l₁ (m + 1) ∧
        PlacedOne r r₁ rest rest₁ k i (nested c) := by
      by_cases hk : k ∈ rest.map Prod.fst
      · obtain ⟨⟨k', i⟩, hi, heq⟩ := List.mem_map.mp hk
        obtain rfl : k' = k := heq
        obtain ⟨r₁, l₁, rest₁, hr⟩ := place_resident nested h (by omega) (by omega) hi
        exact ⟨r₁, l₁, rest₁, i, hr⟩
      · obtain ⟨r₁, l₁, hr⟩ := place_new nested h (by omega) (by omega) hk
        exact ⟨r₁, l₁, rest, _, hr⟩
    obtain ⟨r₁, l₁, rest₁, i, hrun, hplacing, hone⟩ := one
    have bound := hone.bound
    have grows := hone.grows
    obtain ⟨r', l', placed, fresh, hrun', hitems, hall⟩ := ih hplacing (by omega) (by omega)
    have hreplay : replay nested r (placeSteps old ((k, c) :: todo) (behind.head?.map Prod.fst)) =
        .ok r' := by
      rw [replay] at hrun
      rw [placeSteps, replay, List.foldlM_append, hrun]
      exact hrun'
    have behind_keys {e : Key × ℕ} (he : e ∈ placed) : e ∈ placed ++ [(k, i)] :=
      List.mem_append.mpr (.inl he)
    have entries : l'.entries = (placed ++ [(k, i)]) ++ behind := by
      rw [hall.entries, List.append_assoc, List.singleton_append]
    have keys : (placed ++ [(k, i)]).map Prod.fst = (((k, c) :: todo).map Prod.fst).reverse := by
      rw [List.map_append, hall.keys, List.map_cons, List.map_cons, List.reverse_cons]
      rfl
    have hitems' : Items r'.items l' (m + (todo.length + 1)) := by
      rwa [Nat.add_comm todo.length, ← Nat.add_assoc]
    rcases hone.kept with ⟨xs, ys, rfl, rfl, hcreated⟩ | ⟨hk, rfl, rfl, hlt, hcreated⟩
    · refine ⟨r', l', placed ++ [(k, i)], fresh, hreplay, hitems', {
        entries
        keys
        kept := fun e he => ?_
        retired := hall.retired.trans hone.retired
        created := by rw [hall.created, hcreated]
        once := ?_
        mounted := fun e he => behind_keys (hall.mounted e he)
        new := fun e he => grows.trans (hall.new e he)
        apart := hall.apart }⟩
      · rw [List.mem_append, List.mem_cons] at he
        rcases he with he | rfl | he
        · exact behind_keys (hall.kept e (List.mem_append.mpr (.inl he)))
        · simp
        · exact behind_keys (hall.kept e (List.mem_append.mpr (.inr he)))
      · rw [hall.once, List.map_cons, List.filter_cons_of_neg (by simp)]
        refine List.filter_congr fun k' hk' => ?_
        have hne : k' ≠ k := fun heq => (List.nodup_cons.mp h.distinct).1 (heq ▸ hk')
        simp [hne]
    · refine ⟨r', l', placed ++ [(k, r.nextInstance)], (k, r.nextInstance) :: fresh, hreplay, hitems', {
        entries
        keys
        kept := fun e he => behind_keys (hall.kept e he)
        retired := hall.retired.trans hone.retired
        created := by rw [hall.created, hcreated, List.append_assoc, List.singleton_append]
        once := ?_
        mounted := fun e he => ?_
        new := fun e he => ?_
        apart := ?_ }⟩
      · rw [List.map_cons, hall.once, List.map_cons, List.filter_cons_of_pos (by simpa using hk)]
      · rcases List.mem_cons.mp he with rfl | he
        · simp
        · exact behind_keys (hall.mounted e he)
      · rcases List.mem_cons.mp he with rfl | he
        · exact le_rfl
        · exact grows.trans (hall.new e he)
      · rw [List.map_cons, List.nodup_cons]
        refine ⟨fun hmem => ?_, hall.apart⟩
        obtain ⟨e, he, heq⟩ := List.mem_map.mp hmem
        have := hall.new e he
        omega


/-- The registry and the runtime as the column renders again: every resident item is live
under its key, with an instance of its own. -/
structure Resident (items : KeyedSeq Key ℕ) (entries : List (Key × ℕ)) (r : Replay) : Prop where
  holding : r.items = items
  listed : items.toList = .ok entries
  live : ∀ k i, r.live.get k = some i ↔ (k, i) ∈ entries
  instances : (entries.map Prod.snd).Nodup
  known : ∀ e ∈ entries, e.2 ∈ r.boundaries
  issued : ∀ e ∈ entries, e.2 < r.nextInstance
  unseen : r.seen = ∅
  retired : r.retired = []
  created : r.created = []

/-- The target is reached: its order, with the instances of the keys it keeps, the other
items retired once, and one fresh instance for each key that had none. -/
structure Reaches (entries : List (Key × ℕ)) (keys : List Key) (r r' : Replay) : Prop where
  order : ∃ final, r'.items.toList = .ok final ∧ final.map Prod.fst = keys ∧
    (∀ e ∈ entries, e.1 ∈ keys → e ∈ final) ∧ ∀ e ∈ r'.created, e ∈ final
  retired : r'.retired = (entries.filter fun e => e.1 ∉ keys).map Prod.snd
  retiredOnce : r'.retired.Nodup
  created : r'.created.map Prod.fst = keys.reverse.filter fun k => k ∉ entries.map Prod.fst
  createdOnce : (r'.created.map Prod.fst).Nodup
  fresh : (r'.created.map Prod.snd).Nodup ∧ ∀ e ∈ r'.created, r.nextInstance ≤ e.2

variable {items : KeyedSeq Key ℕ} {entries : List (Key × ℕ)} {keys : List Key}
  {children : List E} {n : ℕ}

theorem fallback_steps (hr : Resident items entries r) (hlen : keys.length = children.length) :
    keyedFallbackSteps items keys children =
      .ok (((entries.filter fun e => e.1 ∉ keys).map fun e => .remove e.1) ++
        placeSteps items (keys.zip children).reverse none) := by
  have survives : (entries.filter fun e => !present (survivors keys) e.1) =
      entries.filter fun e => e.1 ∉ keys := by
    refine List.filter_congr fun e _ => ?_
    by_cases he : e.1 ∈ keys
    · simp [he, (present_iff keys e.1).mpr he]
    · simp [he, Bool.eq_false_iff.mpr (mt (present_iff keys e.1).mp he)]
  rw [keyedFallbackSteps, hr.listed, ok_bind, if_neg (not_not.mpr hlen), pure_eq_ok, survives]

theorem fallback_reaches (hs : Built items n) (hr : Resident items entries r)
    (distinct : keys.Nodup) (hlen : keys.length = children.length)
    (room : n + entries.length + keys.length < maxId)
    (ids : r.nextInstance + keys.length + (children.map nested).sum ≤ maxId) :
    ∃ steps r', keyedFallbackSteps items keys children = .ok steps ∧
      replay nested r steps = .ok r' ∧ Reaches entries keys r r' := by
  obtain ⟨l, hholds⟩ := built_holds hs
  have counts := built_counts hs
  obtain rfl : entries = l.entries := Except.ok.inj (hr.listed.symm.trans (to_list hholds))
  obtain rfl := hr.holding
  have shorter : (l.entries.filter fun e => e.1 ∉ keys).length ≤ l.entries.length :=
    List.length_filter_le ..
  obtain ⟨items₁, l₁, hremove, hitems₁, hentries₁⟩ := remove_items nested
    ⟨hholds, counts.1, counts.2⟩ (Nat.lt_of_le_of_lt (Nat.add_le_add_left shorter n) (by omega))
    (fun e he => List.mem_of_mem_filter he) (l.distinct.sublist (List.filter_sublist.map _))
    (hr.instances.sublist (List.filter_sublist.map _))
    fun e he => hr.known e (List.mem_of_mem_filter he)
  have kept {e : Key × ℕ} : e ∈ l₁.entries ↔ e ∈ l.entries ∧ e.1 ∈ keys := by
    rw [hentries₁, List.mem_filter]
    refine and_congr_right fun he => ?_
    have alone {i : ℕ} (hi : (e.1, i) ∈ l.entries) : i = e.2 :=
      Option.some.inj ((mem_entries_iff.mp hi).symm.trans (mem_entries_iff.mp he))
    simp only [List.mem_map, List.mem_filter, decide_not, Bool.not_eq_true', decide_eq_false_iff_not]
    constructor
    · intro h
      by_contra hk
      exact h ⟨e, ⟨he, hk⟩, rfl⟩
    · rintro hk ⟨e', ⟨-, hk'⟩, heq⟩
      exact hk' (heq ▸ hk)
  have hkeys : ((keys.zip children).reverse.map Prod.fst) = keys.reverse := by
    rw [List.map_reverse, List.map_fst_zip hlen.le]
  have hcost : ((keys.zip children).reverse.map fun e => nested e.2).sum =
      (children.map nested).sum := by
    have hsnd : (keys.zip children).map (fun e => nested e.2) =
        ((keys.zip children).map Prod.snd).map nested := by
      rw [List.map_map]
      rfl
    rw [List.map_reverse, List.sum_reverse, hsnd, List.map_snd_zip hlen.ge]
  have placing : Placing r.items (keys.zip children).reverse l₁.entries [] { r with
      items := items₁
      boundaries := r.boundaries \ ((l.entries.filter fun e => e.1 ∉ keys).map Prod.snd).toFinset
      retired := r.retired ++ (l.entries.filter fun e => e.1 ∉ keys).map Prod.snd } l₁
      (n + (l.entries.filter fun e => e.1 ∉ keys).length) := {
    items := hitems₁
    cut := (List.append_nil _).symm
    distinct := by rwa [hkeys, List.nodup_reverse]
    wanted := fun e he => by rw [hkeys, List.mem_reverse]; exact (kept.mp he).2
    unplaced := fun k _ => List.not_mem_nil
    unseen := fun k _ => by simp only [hr.unseen, Finset.notMem_empty, not_false_iff]
    resident := fun k hk i => by
      rw [hkeys, List.mem_reverse] at hk
      rw [kept, and_iff_left hk, mem_entries_iff, get_eq hholds]
      cases l.get k <;> simp
    live := fun k hk i => by
      rw [hkeys, List.mem_reverse] at hk
      rw [kept, and_iff_left hk]
      exact hr.live k i }
  have hlength : (keys.zip children).reverse.length = keys.length := by
    rw [List.length_reverse, List.length_zip, hlen, Nat.min_self]
  obtain ⟨r', l', placed, fresh, hplace, hitems', hall⟩ := place_run nested placing
    (by omega) (by rw [hlength, hcost]; exact ids)
  have hcreated : r'.created = fresh := by rw [hall.created, hr.created, List.nil_append]
  have hretired : r'.retired = (l.entries.filter fun e => e.1 ∉ keys).map Prod.snd := by
    rw [hall.retired, hr.retired, List.nil_append]
  have honce : fresh.map Prod.fst = keys.reverse.filter fun k => k ∉ l.keys := by
    rw [hall.once, hkeys]
    refine List.filter_congr fun k hk => ?_
    rw [List.mem_reverse] at hk
    have hmem : k ∈ l₁.entries.map Prod.fst ↔ k ∈ l.keys := by
      simp only [KeyedList.keys, List.mem_map, kept]
      constructor
      · rintro ⟨e, ⟨he, -⟩, heq⟩
        exact ⟨e, he, heq⟩
      · rintro ⟨e, he, rfl⟩
        exact ⟨e, ⟨he, hk⟩, rfl⟩
    simp only [hmem]
  refine ⟨_, r', fallback_steps hr hlen, ?_, ?_⟩
  · rw [replay] at hremove hplace ⊢
    rw [List.foldlM_append, hremove]
    exact hplace
  · exact {
      order := by
        refine ⟨placed, ?_, ?_, fun e he hk => hall.kept e (kept.mpr ⟨he, hk⟩), ?_⟩
        · rw [to_list hitems'.holds, hall.entries, List.append_nil]
        · rw [hall.keys, hkeys, List.reverse_reverse]
        · rw [hcreated]
          exact hall.mounted
      retired := hretired
      retiredOnce := hretired ▸ hr.instances.sublist (List.filter_sublist.map _)
      created := by rw [hcreated, honce]; rfl
      createdOnce := by
        rw [hcreated, honce]
        exact (List.nodup_reverse.mpr distinct).filter _
      fresh := hcreated ▸ ⟨hall.apart, hall.new⟩ }

theorem to_option_some {α : Type} {x : Answer Key α} {a : α} (h : x.toOption = some a) :
    x = .ok a := by
  cases x with
  | ok b => exact congrArg _ (Option.some.inj h)
  | error failure => cases h

/-- Two resident items, one of them wanted again behind a new one. -/
theorem two_items_fallback : ∃ (items : KeyedSeq Key ℕ) (steps : List (KeyedStep Unit)) (r r' : Replay),
    Resident items [(.replicate 32 1, 10), (.replicate 32 2, 11)] r ∧
    keyedFallbackSteps items [.replicate 32 3, .replicate 32 1] [(), ()] = .ok steps ∧
    replay (fun _ => 0) r steps = .ok r' ∧
    Reaches [(.replicate 32 1, 10), (.replicate 32 2, 11)] [.replicate 32 3, .replicate 32 1] r r' := by
  obtain ⟨items, hrun, hs⟩ := built_from_list (K := Key) (V := ℕ)
    [(.replicate 32 1, 10), (.replicate 32 2, 11)] (by decide +kernel)
  have hlist : (KeyedSeq.fromList [((.replicate 32 1 : Key), 10), (.replicate 32 2, 11)] >>=
      fun s => s.toList).toOption = some [(.replicate 32 1, 10), (.replicate 32 2, 11)] := by
    decide +kernel
  have hr : Resident items [(.replicate 32 1, 10), (.replicate 32 2, 11)] {
      items
      boundaries := {10, 11}
      live := ((∅ : FiniteMap Key ℕ).set (.replicate 32 1) 10).set (.replicate 32 2) 11
      seen := ∅
      nextInstance := 12
      retired := []
      created := [] } := {
    holding := rfl
    listed := by
      rw [hrun, ok_bind] at hlist
      exact to_option_some hlist
    live := fun k i => by
      rw [FiniteMap.get_set, FiniteMap.get_set]
      by_cases h₂ : k = .replicate 32 2
      · simp [h₂, eq_comm]
      · by_cases h₁ : k = .replicate 32 1
        · have hne : (.replicate 32 1 : Key) ≠ .replicate 32 2 := by decide +kernel
          simp [h₁, hne, eq_comm]
        · simp [h₁, h₂]
    instances := by decide
    known := by simp
    issued := by simp
    unseen := rfl
    retired := rfl
    created := rfl }
  obtain ⟨steps, r', hsteps, hreplay, hreaches⟩ : ∃ steps r',
      keyedFallbackSteps items [.replicate 32 3, .replicate 32 1] [(), ()] = .ok steps ∧
      replay (fun _ => 0) _ steps = .ok r' ∧ Reaches _ [.replicate 32 3, .replicate 32 1] _ r' :=
    fallback_reaches hs hr (by decide +kernel) rfl (by decide +kernel)
      (show 12 + 2 + 0 ≤ maxId by decide)
  exact ⟨items, steps, _, r', hr, hsteps, hreplay, hreaches⟩

/-- A column whose last revision is used up cannot drop its item. -/
theorem fallback_out_of_revisions : ∃ (items : KeyedSeq Key ℕ) (n : ℕ)
    (entries : List (Key × ℕ)) (r : Replay) (steps : List (KeyedStep Unit)), Built items n ∧
    Resident items entries r ∧ keyedFallbackSteps items [] ([] : List Unit) = .ok steps ∧
    replay (fun _ => 0) r steps = .error (.panic "integer addition overflowed") := by
  obtain ⟨s, hrun, hs⟩ := built_from_list (K := Key) (V := ℕ) [(.replicate 32 1, 10)]
    (by decide +kernel)
  have facts : (KeyedSeq.fromList [((.replicate 32 1 : Key), 10)]).toOption.any
      (fun s => s.revision = 1 ∧ (s.keys.get (.replicate 32 1)).isSome ∧
        s.toList.toOption = some [(.replicate 32 1, 10)]) = true := by
    decide +kernel
  rw [hrun] at facts
  obtain ⟨hrev, hkey, hlist⟩ : s.revision = 1 ∧ (s.keys.get (.replicate 32 1)).isSome = true ∧
      s.toList.toOption = some [(.replicate 32 1, 10)] := of_decide_eq_true facts
  have room : s.revision + (maxId - 1) = maxId := by
    rw [hrev]
    rfl
  obtain ⟨items, m, hb, hrev', -, -, hsame⟩ := sets_revise (v := 10) hs hkey (maxId - 1) room.le
  have hlist' := hsame (to_option_some hlist)
  have hr : Resident items [(.replicate 32 1, 10)] {
      items
      boundaries := {10}
      live := (∅ : FiniteMap Key ℕ).set (.replicate 32 1) 10
      seen := ∅
      nextInstance := 11
      retired := []
      created := [] } := {
    holding := rfl
    listed := hlist'
    live := fun k i => by
      rw [FiniteMap.get_set]
      by_cases h₁ : k = .replicate 32 1
      · simp [h₁, eq_comm]
      · simp [h₁]
    instances := by decide
    known := by simp
    issued := by simp
    unseen := rfl
    retired := rfl
    created := rfl }
  refine ⟨items, m, _, _, _, hb, hr, fallback_steps hr rfl, ?_⟩
  obtain ⟨l, hholds⟩ := built_holds hb
  have hentries : l.entries = [] ++ (.replicate 32 1, 10) :: [] :=
    Except.ok.inj ((to_list hholds).symm.trans hlist')
  have hget : items.get (.replicate 32 1) = .ok 10 := by
    rw [get_eq hholds, get_eq_some_iff.mpr ⟨[], [], hentries⟩]
  have hstep : items.remove (.replicate 32 1) = .error (.panic "integer addition overflowed") := by
    rw [KeyedSeq.remove]
    rcases remove_listed hholds (mem_keys_iff.mpr ⟨10, [], [], hentries⟩) with
      ⟨s', hremove, -, hsame', -⟩ | ⟨-, hover⟩
    · rw [hremove, ok_bind, KeyedSeq.record, if_pos (by omega)]
      rfl
    · rw [hover]
      rfl
  rw [show ([((.replicate 32 1 : Key), 10)].filter fun e => e.1 ∉ ([] : List Key)) =
    [(.replicate 32 1, 10)] from rfl, List.map_singleton, List.zip_nil_left, replay,
    List.singleton_append, List.foldlM_cons, replayStep, hget]
  simp only [orPanic, ok_bind, Finset.mem_singleton, not_true_eq_false, if_false, hstep]
  rfl


end Replay

end KeyedFallbacks
