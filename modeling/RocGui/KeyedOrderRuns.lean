import RocGui.KeyedOrderLists

/-! Whole journals: any operations on a committed order, and the way back from them. -/
namespace KeyedOrderRuns

open FiniteMaps KeyedLists LinkedOrders Methods KeyedOrder KeyedOrderJournal KeyedOrderLists

variable {K : Type} [DecidableEq K]

section Rollback

/-- Every record that differs from `base` has its original saved. -/
structure Recoverable (base : KeyedChildOrder K) (j : KeyedOrderJournal K) : Prop where
  head : j.originalHead = base.head
  tail : j.originalTail = base.tail
  revision : j.originalRevision = base.revision
  saved : ∀ k c, j.originals.get k = some c → c = base.children.get k
  untouched : ∀ k, j.originals.get k = none → j.order.children.get k = base.children.get k

theorem recoverable_new (base : KeyedChildOrder K) : Recoverable base (new base) :=
  ⟨rfl, rfl, rfl, by simp [new], fun _ _ => rfl⟩

variable {base : KeyedChildOrder K} {j : KeyedOrderJournal K} {k : K} {α : Type}

theorem recoverable_touched (h : Recoverable base j) (k : K) : Recoverable base (touched k j) := by
  simp only [touched]
  split
  · exact h
  rename_i hk
  refine ⟨h.head, h.tail, h.revision, fun q c hq => ?_, fun q hq => ?_⟩
  · rw [FiniteMap.get_set] at hq
    split at hq
    · rename_i hqk
      subst hqk
      rw [← Option.some.inj hq]
      exact h.untouched q (by simpa using hk)
    · exact h.saved q c hq
  · rw [FiniteMap.get_set] at hq
    split at hq
    · cases hq
    · exact h.untouched q hq

theorem touched_saved (k : K) (j : KeyedOrderJournal K) :
    ((touched k j).originals.get k).isSome := by
  simp only [touched]
  split
  · assumption
  · simp

theorem recoverable_write (h : Recoverable base j) (hk : (j.originals.get k).isSome)
    {o : KeyedChildOrder K} (same : ∀ q ≠ k, o.children.get q = j.order.children.get q) :
    Recoverable base { j with order := o } := by
  refine ⟨h.head, h.tail, h.revision, h.saved, fun q hq => ?_⟩
  refine (same q ?_).trans (h.untouched q hq)
  rintro rfl
  simp [hq] at hk

theorem preserves_touch {m : JournalMethod K α}
    (h : ∀ j, Recoverable base j → (j.originals.get k).isSome → Recoverable base (after (m.run j))) :
    Preserves (Recoverable base) (touch k >>= fun _ => m) := by
  intro j hj
  rw [run_bind_ok (touch_run k j)]
  exact h _ (recoverable_touched hj k) (touched_saved k j)

theorem preserves_touch_rewrite (k : K) (message : String) (f : KeyedChild K → KeyedChild K) :
    Preserves (Recoverable base) (do touch k; rewrite k message f : JournalMethod K Unit) := by
  refine preserves_touch fun j hj hk => ?_
  cases hc : j.order.children.get k with
  | none => simpa [rewrite, hc] using hj
  | some c =>
    rw [rewrite_run message f hc]
    exact recoverable_write hj hk fun q hq => by simp [KeyedChildOrder.withChild, FiniteMap.get_set, hq]

theorem preserves_linkNext (at_ : Option K) (message : String) (x : Option K) :
    Preserves (Recoverable base) (linkNext at_ message x) := by
  cases at_ with
  | none => exact preserves_modify fun j h => ⟨h.head, h.tail, h.revision, h.saved, h.untouched⟩
  | some k => exact preserves_touch_rewrite k message _

theorem preserves_linkPrevious (at_ : Option K) (message : String) (x : Option K) :
    Preserves (Recoverable base) (linkPrevious at_ message x) := by
  cases at_ with
  | none => exact preserves_modify fun j h => ⟨h.head, h.tail, h.revision, h.saved, h.untouched⟩
  | some k => exact preserves_touch_rewrite k message _

theorem preserves_child (k : K) : Preserves (Recoverable base) (child k) := by
  refine preserves_bind preserves_get fun j => ?_
  cases j.order.children.get k with
  | none => exact preserves_throw _
  | some c => exact preserves_pure c

theorem preserves_anchor (before : Option K) :
    Preserves (Recoverable base) (before.mapM child : JournalMethod K _) := by
  cases before with
  | none => exact preserves_pure _
  | some a =>
    rw [Option.mapM_some, ← bind_pure_comp]
    exact preserves_bind (preserves_child a) fun _ => preserves_pure _

theorem preserves_insert (k : K) (root instanceId : ℕ) (before : Option K) :
    Preserves (Recoverable base) (KeyedOrderJournal.insert k root instanceId before) := by
  refine preserves_bind preserves_get fun j => ?_
  split
  · exact preserves_throw _
  refine preserves_bind (preserves_anchor before) fun next => preserves_bind preserves_get fun j => ?_
  refine preserves_touch fun j hj hk => ?_
  rw [run_bind_ok (putChild_run k _ j)]
  refine preserves_bind (preserves_linkNext _ _ _) (fun _ => preserves_linkPrevious _ _ _) _ ?_
  exact recoverable_write hj hk fun q hq => by simp [KeyedChildOrder.withChild, FiniteMap.get_set, hq]

theorem preserves_unlink (c : KeyedChild K) : Preserves (Recoverable base) (unlink c) :=
  preserves_bind (preserves_linkNext _ _ _) fun _ => preserves_linkPrevious _ _ _

theorem preserves_remove (k : K) : Preserves (Recoverable base) (KeyedOrderJournal.remove k) := by
  refine preserves_bind (preserves_child k) fun c => preserves_bind (preserves_unlink c) fun _ => ?_
  refine preserves_touch fun j hj hk => recoverable_write hj hk fun q hq => ?_
  simp [FiniteMap.get_remove, hq]

theorem preserves_relink (k : K) (before : Option K) :
    Preserves (Recoverable base) (relink k before) := by
  refine preserves_bind preserves_get fun j => ?_
  refine preserves_bind (preserves_linkNext _ _ _) fun _ => ?_
  exact preserves_bind (preserves_linkPrevious _ _ _) fun _ => preserves_touch_rewrite k _ _

theorem preserves_moveBefore (k : K) (before : Option K) :
    Preserves (Recoverable base) (moveBefore k before) := by
  refine preserves_bind (preserves_child k) fun c => ?_
  split
  · exact preserves_pure ()
  refine preserves_bind (preserves_anchor before) fun _ => ?_
  exact preserves_bind (preserves_unlink c) fun _ => preserves_relink k before

theorem preserves_replace (k : K) (root : ℕ) :
    Preserves (Recoverable base) (KeyedOrderJournal.replace k root) :=
  preserves_bind (preserves_child k) fun _ => preserves_touch_rewrite k _ _

theorem preserves_perform (op : KeyedOrderOperation K) :
    Preserves (Recoverable base) (perform op) := by
  cases op with
  | insert key root instanceId before => exact preserves_insert key root instanceId before
  | remove key => exact preserves_remove key
  | move key before => exact preserves_moveBefore key before
  | replace key root => exact preserves_replace key root

theorem get_restore (children : FiniteMap K (KeyedChild K)) (e : K × Option (KeyedChild K)) (q : K) :
    (restore children e).get q = if q = e.1 then e.2 else children.get q := by
  obtain ⟨k, c⟩ := e
  cases c with
  | none => exact FiniteMap.get_remove children k q
  | some c => exact FiniteMap.get_set children k c q

/-- Each saved key is put back once, so the order of the loop does not matter. -/
theorem get_foldl_restore (es : List (K × Option (KeyedChild K))) (distinct : (es.map Prod.fst).Nodup)
    (children : FiniteMap K (KeyedChild K)) (q : K) :
    (es.foldl restore children).get q = (es.lookup q).getD (children.get q) := by
  induction es generalizing children with
  | nil => rfl
  | cons e es ih =>
    rw [List.map_cons, List.nodup_cons] at distinct
    rw [List.foldl_cons, ih distinct.2, get_restore, lookup_cons]
    by_cases hq : q = e.1
    · subst hq
      have : es.lookup e.1 = none := by
        rw [List.lookup_eq_none_iff]
        intro p hp
        simpa using fun h : e.1 = p.1 => distinct.1 (h ▸ List.mem_map_of_mem hp)
      simp [this]
    · simp [hq]

theorem rollback_restores (hashOrder : Enumeration K (Option (KeyedChild K)))
    (h : Recoverable base j) : rollback hashOrder j = base := by
  have children : (hashOrder.entries j.originals).foldl restore j.order.children = base.children := by
    ext1 q
    rw [get_foldl_restore _ (hashOrder.distinct _)]
    cases hq : (hashOrder.entries j.originals).lookup q with
    | some c =>
      obtain ⟨xs, ys, hsplit, -⟩ := List.lookup_eq_some_iff.mp hq
      have hmem : (q, c) ∈ hashOrder.entries j.originals := by simp [hsplit]
      exact h.saved q c ((hashOrder.listed _ _ _).mp hmem)
    | none =>
      refine h.untouched q (Option.eq_none_iff_forall_ne_some.mpr fun c hc => ?_)
      have hmem := (hashOrder.listed _ _ _).mpr hc
      simpa using List.lookup_eq_none_iff.mp hq _ hmem
  rw [rollback, h.head, h.tail, h.revision, children]

end Rollback

section Commits

variable {o : KeyedChildOrder K}

/-- The orders a container can hold between patches. -/
inductive Committed : KeyedChildOrder K → Prop where
  | empty : Committed .empty
  | seeded {revision : ℕ} {entries : List (K × ℕ × ℕ)} {o : KeyedChildOrder K} :
    fromSeed revision entries = .ok o → Committed o
  | edited {o : KeyedChildOrder K} {ops : List (KeyedOrderOperation K)} {accepted : List Bool}
    {j : KeyedOrderJournal K} (revision : ℕ) : Committed o →
    attempts (new o) ops = .ok (accepted, j) → false ∉ accepted →
    Committed { j.order with revision }
  /-- A replaced item keeps its place under a new root. -/
  | replaced {o : KeyedChildOrder K} {k : K} {c : KeyedChild K} (root : ℕ) : Committed o →
    o.children.get k = some c → Committed (o.withChild k { c with root })

structure Seeded (before after : FiniteMap K (KeyedChild K)) (previous : Option K)
    (es : List (K × ℕ × ℕ)) : Prop where
  distinct : (es.map Prod.fst).Nodup
  fresh : ∀ k ∈ es.map Prod.fst, before.get k = none
  away : ∀ k ∉ es.map Prod.fst, after.get k = before.get k
  chained : Chained (fun k => (after.get k).map fun c => ⟨c.previous, c.next⟩) previous
    (es.map Prod.fst) none
  contents : ∀ e ∈ es, (after.get e.1).map (fun c => (c.root, c.instanceId)) = some e.2

theorem seed_children {es : List (K × ℕ × ℕ)} {previous : Option K}
    {before after : FiniteMap K (KeyedChild K)} (h : seedChildren before previous es = .ok after) :
    Seeded before after previous es := by
  induction es generalizing before previous with
  | nil =>
    cases h
    exact ⟨List.nodup_nil, by simp, fun _ _ => rfl, trivial, by simp⟩
  | cons e es ih =>
    obtain ⟨k, root, instanceId⟩ := e
    simp only [seedChildren] at h
    split at h
    · cases h
    rename_i hk
    have seeded := ih h
    have hnot : k ∉ es.map Prod.fst := fun hmem => by simpa using seeded.fresh k hmem
    have hplaced := (seeded.away k hnot).trans (FiniteMap.get_set_self _ _ _)
    have hne {q : K} (hq : q ∈ es.map Prod.fst) : q ≠ k := fun heq => hnot (heq ▸ hq)
    refine ⟨List.nodup_cons.mpr ⟨hnot, seeded.distinct⟩, ?_, ?_, ⟨?_, seeded.chained⟩, ?_⟩
    · intro q hq
      rcases List.mem_cons.mp hq with rfl | hq
      · simpa using hk
      · simpa [FiniteMap.get_set, hne hq] using seeded.fresh q hq
    · intro q hq
      rw [List.map_cons, List.mem_cons, not_or] at hq
      rw [seeded.away q hq.2, FiniteMap.get_set_ne _ _ hq.1]
    · simp [hplaced]
    · intro e he
      rcases List.mem_cons.mp he with rfl | he
      · simp [hplaced]
      · exact seeded.contents e he

theorem seed_represents {revision : ℕ} {entries : List (K × ℕ × ℕ)}
    (h : fromSeed revision entries = .ok o) :
    ∃ l, l.entries = entries ∧ Represents o l := by
  cases hc : seedChildren ∅ none entries with
  | error e => simp [fromSeed, hc, bind, Except.bind] at h
  | ok children =>
    have seeded := seed_children hc
    obtain rfl : (⟨revision, (entries.map Prod.fst).head?, (entries.map Prod.fst).getLast?,
        children⟩ : KeyedChildOrder K) = o := by
      simpa [fromSeed, hc, bind, Except.bind, pure, Except.pure] using h
    refine ⟨⟨entries, seeded.distinct⟩, rfl, ⟨seeded.distinct, rfl, rfl, seeded.chained⟩, ?_⟩
    intro k
    cases hv : KeyedList.get ⟨entries, seeded.distinct⟩ k with
    | some v =>
      obtain ⟨xs, ys, cut⟩ := get_eq_some_iff.mp hv
      exact seeded.contents (k, v) (by rw [show entries = _ from cut]; simp)
    | none =>
      have hk : k ∉ entries.map Prod.fst := fun hmem => by
        simpa [hv] using get_is_some.mpr (show k ∈ KeyedList.keys ⟨entries, seeded.distinct⟩ from hmem)
      simp [contents, seeded.away k hk]

def answers (l : KeyedList K (ℕ × ℕ)) :
    List (KeyedOrderOperation K) → List Bool × KeyedList K (ℕ × ℕ)
  | [] => ([], l)
  | op :: ops =>
    match edit l op with
    | .ok l => let (accepted, l) := answers l ops; (true :: accepted, l)
    | .error _ => let (accepted, l) := answers l ops; (false :: accepted, l)

theorem attempts_refine {j : KeyedOrderJournal K} {l : KeyedList K (ℕ × ℕ)}
    (h : Represents j.order l) (ops : List (KeyedOrderOperation K)) :
    ∃ t, attempts j ops = .ok ((answers l ops).1, t) ∧ Represents t.order (answers l ops).2 := by
  induction ops generalizing j l with
  | nil => exact ⟨j, rfl, h⟩
  | cons op ops ih =>
    have step := perform_refines h op
    cases he : edit l op with
    | ok m =>
      rw [he] at step
      obtain ⟨t, hrun, ht⟩ := step
      obtain ⟨u, hu, hrep⟩ := ih ht
      exact ⟨u, by simp [attempts, hrun, hu, answers, he, Except.map], by simpa [answers, he] using hrep⟩
    | error r =>
      rw [he] at step
      have hrun : (perform op).run j = .error (.error (reason r)) j := step
      obtain ⟨u, hu, hrep⟩ := ih h
      exact ⟨u, by simp [attempts, hrun, hu, answers, he, Except.map], by simpa [answers, he] using hrep⟩

theorem attempts_cons {j t : KeyedOrderJournal K} {op : KeyedOrderOperation K}
    {ops : List (KeyedOrderOperation K)} {accepted : List Bool}
    (h : attempts j (op :: ops) = .ok (accepted, t)) :
    ∃ rest, attempts (after ((perform op).run j)) ops = .ok (rest, t) := by
  have unmap {f : List Bool × KeyedOrderJournal K → List Bool × KeyedOrderJournal K}
      {answer : Except (Failure (KeyedOrderError K)) (List Bool × KeyedOrderJournal K)}
      (h : answer.map f = .ok (accepted, t)) (hf : ∀ p, (f p).2 = p.2) :
      ∃ rest, answer = .ok (rest, t) := by
    cases answer with
    | error m => cases h
    | ok p =>
      have heq : f p = (accepted, t) := Except.ok.inj h
      obtain rfl : p.2 = t := (hf p).symm.trans (congrArg Prod.snd heq)
      exact ⟨p.1, rfl⟩
  simp only [attempts] at h
  cases hop : (perform op).run j with
  | ok _ u =>
    simp only [hop] at h
    exact unmap h fun _ => rfl
  | error e u =>
    cases e with
    | error e =>
      simp only [hop] at h
      exact unmap h fun _ => rfl
    | panic m => simp [hop] at h
    | diverges => simp [hop] at h

theorem attempts_recoverable {base : KeyedChildOrder K} {j t : KeyedOrderJournal K}
    {ops : List (KeyedOrderOperation K)} {accepted : List Bool} (h : Recoverable base j)
    (hrun : attempts j ops = .ok (accepted, t)) : Recoverable base t := by
  induction ops generalizing j accepted with
  | nil =>
    cases hrun
    exact h
  | cons op ops ih =>
    obtain ⟨rest, hrest⟩ := attempts_cons hrun
    exact ih (preserves_perform op j h) hrest

theorem committed_represents (h : Committed o) : ∃ l, Represents o l := by
  induction h with
  | empty => exact ⟨.empty, ⟨List.nodup_nil, rfl, rfl, trivial⟩, fun k => rfl⟩
  | seeded hseed => exact (seed_represents hseed).imp fun l hl => hl.2
  | edited revision _ hrun _ ih =>
    obtain ⟨l, hl⟩ := ih
    obtain ⟨t, ht, represents⟩ := attempts_refine (j := new _) hl _
    obtain ⟨-, rfl⟩ := Prod.mk.inj (Except.ok.inj (ht.symm.trans hrun))
    exact ⟨_, represents.threaded, represents.contents⟩
  | replaced root _ hc ih =>
    obtain ⟨l, hl⟩ := ih
    exact ⟨_, represents_root hl root hc⟩

def Yields (answer : Except (Failure Empty) (List (K × KeyedChild K)))
    (es : List (K × ℕ × ℕ)) : Prop := ∃ cs, answer = .ok cs ∧ cs.map item = es

/-- Any operations tried on any committed order are answered as its list answers
them, the edited order reads the same from both ends, and nothing is lost on the
way back. -/
theorem journal_refines_list (h : Committed o) (ops : List (KeyedOrderOperation K))
    (hashOrder : Enumeration K (Option (KeyedChild K))) :
    ∃ l j, Yields (forward o) l.entries ∧
      attempts (new o) ops = .ok ((answers l ops).1, j) ∧
      Yields (forward j.order) (answers l ops).2.entries ∧
      Yields (backward j.order) (answers l ops).2.entries.reverse ∧
      j.order.children.size = (answers l ops).2.entries.length ∧
      rollback hashOrder j = o := by
  obtain ⟨l, hl⟩ := committed_represents h
  obtain ⟨j, hrun, represents⟩ := attempts_refine (j := new o) hl ops
  exact ⟨l, j, forward_eq hl, hrun, forward_eq represents, backward_eq represents,
    size_eq represents, rollback_restores hashOrder (attempts_recoverable (recoverable_new o) hrun)⟩

/-- A removed key comes back at the other end. -/
theorem journal_refines_list_seeded : ∃ o : KeyedChildOrder ℕ,
    fromSeed 0 [(1, 10, 100), (2, 20, 200)] = .ok o ∧ ∃ l j, Yields (forward o) l.entries ∧
      attempts (new o) [.remove 1, .insert 1 11 101 none] =
        .ok ((answers l [.remove 1, .insert 1 11 101 none]).1, j) ∧
      Yields (forward j.order) (answers l [.remove 1, .insert 1 11 101 none]).2.entries ∧
      Yields (backward j.order) (answers l [.remove 1, .insert 1 11 101 none]).2.entries.reverse ∧
      j.order.children.size = (answers l [.remove 1, .insert 1 11 101 none]).2.entries.length ∧
      rollback .sorted j = o :=
  have seed : fromSeed 0 [(1, 10, 100), (2, 20, 200)] = .ok _ := rfl
  ⟨_, seed, journal_refines_list (.seeded seed) _ _⟩

end Commits

end KeyedOrderRuns
