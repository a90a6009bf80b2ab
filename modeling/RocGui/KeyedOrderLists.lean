import RocGui.KeyedOrder

/-! The journal's edits are the edits of an ordered list with distinct keys. -/
namespace KeyedOrderLists

open FiniteMaps KeyedLists LinkedOrders Methods KeyedOrder KeyedOrderJournal

variable {K : Type} [DecidableEq K]

def links (o : KeyedChildOrder K) : Links K :=
  fun k => (o.children.get k).map fun c => ⟨c.previous, c.next⟩

def contents (o : KeyedChildOrder K) (k : K) : Option (ℕ × ℕ) :=
  (o.children.get k).map fun c => (c.root, c.instanceId)

/-- The cells of `o` are the entries of `l`, linked in its order. -/
structure Represents (o : KeyedChildOrder K) (l : KeyedList K (ℕ × ℕ)) : Prop where
  threaded : Threaded (links o) o.head o.tail l.keys
  contents : ∀ k, contents o k = l.get k

@[simp] theorem touched_order (k : K) (j : KeyedOrderJournal K) : (touched k j).order = j.order := by
  simp only [touched]
  split <;> rfl

section Primitives

structure Rewired (o o' : KeyedChildOrder K) (left right x y : Option K) : Prop where
  links : links o' = splice (links o) left right x y
  contents : contents o' = contents o
  head : o'.head = redirect left x o.head
  tail : o'.tail = redirect right y o.tail

theorem links_withChild (o : KeyedChildOrder K) (k : K) (c : KeyedChild K) :
    links (o.withChild k c) = fun q => if q = k then some ⟨c.previous, c.next⟩ else links o q := by
  funext q
  simp only [links, KeyedChildOrder.withChild, FiniteMap.get_set]
  split <;> rfl

theorem contents_withChild (o : KeyedChildOrder K) (k : K) (c : KeyedChild K) :
    contents (o.withChild k c) =
      fun q => if q = k then some (c.root, c.instanceId) else contents o q := by
  funext q
  simp only [contents, KeyedChildOrder.withChild, FiniteMap.get_set]
  split <;> rfl

theorem touch_run (k : K) (j : KeyedOrderJournal K) : (touch k).run j = .ok () (touched k j) := rfl

theorem putChild_run (k : K) (c : KeyedChild K) (j : KeyedOrderJournal K) :
    (putChild k c).run j = .ok () { j with order := j.order.withChild k c } := rfl

theorem rewrite_run {j : KeyedOrderJournal K} {k : K} {c : KeyedChild K} (m : String)
    (f : KeyedChild K → KeyedChild K) (h : j.order.children.get k = some c) :
    (rewrite k m f).run j = .ok () { j with order := j.order.withChild k (f c) } := by
  simp [rewrite, h, putChild]

theorem touch_rewrite_run {j : KeyedOrderJournal K} {k : K} {c : KeyedChild K} (m : String)
    (f : KeyedChild K → KeyedChild K) (h : j.order.children.get k = some c) :
    ∃ t, (do touch k; rewrite k m f : JournalMethod K Unit).run j = .ok () t ∧
      t.order = j.order.withChild k (f c) := by
  have h : (touched k j).order.children.get k = some c := by rwa [touched_order]
  refine ⟨_, (run_bind_ok (touch_run k j)).trans (rewrite_run m f h), ?_⟩
  simp only [touched_order]

theorem linked_of_contents {o : KeyedChildOrder K} {k : K} (h : (contents o k).isSome) :
    ∃ c, o.children.get k = some c := by
  simpa [contents, Option.isSome_iff_exists] using h

theorem contents_relinked {o : KeyedChildOrder K} {k : K} {c d : KeyedChild K}
    (h : o.children.get k = some c) (same : (d.root, d.instanceId) = (c.root, c.instanceId)) :
    contents (o.withChild k d) = contents o := by
  rw [contents_withChild]
  funext q
  by_cases hq : q = k
  · subst hq
    simp [contents, h, same]
  · simp [hq]

theorem linkNext_run {j : KeyedOrderJournal K} {at_ : Option K} (m : String) (x : Option K)
    (present : ∀ k ∈ at_, (contents j.order k).isSome) :
    ∃ t, (linkNext at_ m x).run j = .ok () t ∧ links t.order = setNext (links j.order) at_ x ∧
      contents t.order = contents j.order ∧ t.order.head = redirect at_ x j.order.head ∧
      t.order.tail = j.order.tail := by
  cases at_ with
  | none => exact ⟨_, rfl, by funext k; simp [setNext, links], rfl, rfl, rfl⟩
  | some k =>
    obtain ⟨c, hc⟩ := linked_of_contents (present k rfl)
    obtain ⟨t, hrun, ht⟩ := touch_rewrite_run m (fun c => { c with next := x }) hc
    refine ⟨t, hrun, ?_, ?_, by rw [ht]; rfl, by rw [ht]; rfl⟩
    · rw [ht, links_withChild]
      funext q
      by_cases hq : q = k
      · subst hq
        simp [setNext, links, hc]
      · simp [setNext, hq, Ne.symm hq]
    · rw [ht]
      exact contents_relinked hc rfl

theorem linkPrevious_run {j : KeyedOrderJournal K} {at_ : Option K} (m : String) (x : Option K)
    (present : ∀ k ∈ at_, (contents j.order k).isSome) :
    ∃ t, (linkPrevious at_ m x).run j = .ok () t ∧
      links t.order = setPrevious (links j.order) at_ x ∧
      contents t.order = contents j.order ∧ t.order.head = j.order.head ∧
      t.order.tail = redirect at_ x j.order.tail := by
  cases at_ with
  | none => exact ⟨_, rfl, by funext k; simp [setPrevious, links], rfl, rfl, rfl⟩
  | some k =>
    obtain ⟨c, hc⟩ := linked_of_contents (present k rfl)
    obtain ⟨t, hrun, ht⟩ := touch_rewrite_run m (fun c => { c with previous := x }) hc
    refine ⟨t, hrun, ?_, ?_, by rw [ht]; rfl, by rw [ht]; rfl⟩
    · rw [ht, links_withChild]
      funext q
      by_cases hq : q = k
      · subst hq
        simp [setPrevious, links, hc]
      · simp [setPrevious, hq, Ne.symm hq]
    · rw [ht]
      exact contents_relinked hc rfl

theorem join_run {j : KeyedOrderJournal K} {left right : Option K} (m n : String) (x y : Option K)
    (hl : ∀ k ∈ left, (contents j.order k).isSome) (hr : ∀ k ∈ right, (contents j.order k).isSome) :
    ∃ t, (do linkNext left m x; linkPrevious right n y : JournalMethod K Unit).run j = .ok () t ∧
      Rewired j.order t.order left right x y := by
  obtain ⟨t, hrun, links, contents, head, tail⟩ := linkNext_run m x hl
  rw [← contents] at hr
  obtain ⟨u, hrun', links', contents', head', tail'⟩ := linkPrevious_run n y hr
  refine ⟨u, (run_bind_ok hrun).trans hrun', ?_, contents'.trans contents, ?_, ?_⟩
  · rw [links', links, splice]
  · rw [head', head]
  · rw [tail', tail]

end Primitives

section Edits

variable {j : KeyedOrderJournal K} {l : KeyedList K (ℕ × ℕ)} {k : K}

theorem contents_is_some {o : KeyedChildOrder K} (h : Represents o l) :
    (contents o k).isSome ↔ k ∈ l.keys := by rw [h.contents, get_is_some]

theorem child_is_some {o : KeyedChildOrder K} (h : Represents o l) :
    (o.children.get k).isSome ↔ k ∈ l.keys := by
  rw [← contents_is_some h, contents, Option.isSome_map]

theorem child_at {o : KeyedChildOrder K} (h : Represents o l) {v : ℕ × ℕ} {xs ys : List (K × ℕ × ℕ)}
    (cut : l.entries = xs ++ (k, v) :: ys) :
    o.children.get k = some ⟨v.1, v.2, (xs.map Prod.fst).getLast?, (ys.map Prod.fst).head?⟩ := by
  have threaded := h.threaded
  rw [KeyedList.keys, cut, List.map_append, List.map_cons] at threaded
  have hlink := threaded_at threaded
  have hcontents := (h.contents k).trans (get_eq_some_iff.mpr ⟨xs, ys, cut⟩)
  cases hc : o.children.get k with
  | none => simp [links, hc] at hlink
  | some c =>
    simp only [links, hc, Option.map_some, Option.some.injEq, Link.mk.injEq] at hlink
    simp only [contents, hc, Option.map_some, Option.some.injEq] at hcontents
    subst hcontents
    simp [← hlink.1, ← hlink.2]

theorem child_run {c : KeyedChild K} (h : j.order.children.get k = some c) :
    (child k).run j = .ok c j := by simp [child, h]

theorem child_missing (h : Represents j.order l) (hk : k ∉ l.keys) :
    (child k).run j = .error (.error (.missing k)) j := by
  have hnone : j.order.children.get k = none := by simpa using mt (child_is_some h).mp hk
  simp [child, hnone]

/-- The anchor's predecessor, or the tail when there is no anchor, ends the part of
the list in front of the insertion. -/
theorem gap_before {o : KeyedChildOrder K} {xs ys : List K}
    (h : Threaded (links o) o.head o.tail (xs ++ ys)) :
    (ys.head?.bind fun a => (o.children.get a).bind (·.previous)).or
      (if ys.head?.isNone then o.tail else none) = xs.getLast? := by
  cases ys with
  | nil => simp [h.tail]
  | cons y ys =>
    have hlink := threaded_at h
    cases hc : o.children.get y with
    | none => simp [links, hc] at hlink
    | some c =>
      have : c.previous = xs.getLast? := by simpa [links, hc] using congrArg (·.map Link.previous) hlink
      simp [hc, this]

omit [DecidableEq K] in
theorem keys_cut {l : KeyedList K (ℕ × ℕ)} {xs ys : List (K × ℕ × ℕ)}
    (cut : l.entries = xs ++ ys) : l.keys = xs.map Prod.fst ++ ys.map Prod.fst := by
  rw [KeyedList.keys, cut, List.map_append]

omit [DecidableEq K] in
theorem mem_keys_of_getLast {xs ys : List (K × ℕ × ℕ)} (cut : l.entries = xs ++ ys)
    (hk : k ∈ (xs.map Prod.fst).getLast?) : k ∈ l.keys := by
  rw [KeyedList.keys, cut, List.map_append]
  exact List.mem_append_left _ (List.mem_of_getLast? hk)

omit [DecidableEq K] in
theorem mem_keys_of_head {xs ys : List (K × ℕ × ℕ)} (cut : l.entries = xs ++ ys)
    (hk : k ∈ (ys.map Prod.fst).head?) : k ∈ l.keys := by
  rw [KeyedList.keys, cut, List.map_append]
  exact List.mem_append_right _ (List.mem_of_mem_head? hk)

theorem anchor_missing (h : Represents j.order l) {a : K} (ha : a ∉ l.keys) :
    ((some a).mapM child).run j = .error (.error (.missing a)) j := by
  rw [Option.mapM_some, ← bind_pure_comp]
  exact run_bind_error (child_missing h ha)

theorem represents_place {o o' : KeyedChildOrder K} {left right : Option K}
    {l' : KeyedList K (ℕ × ℕ)} {xs ys : List (K × ℕ × ℕ)} {v : ℕ × ℕ}
    (threaded : Threaded (links o) o.head o.tail (xs.map Prod.fst ++ ys.map Prod.fst))
    (fresh : k ∉ xs.map Prod.fst ++ ys.map Prod.fst) (cut : l'.entries = xs ++ (k, v) :: ys)
    (hl : left = (xs.map Prod.fst).getLast?) (hr : right = (ys.map Prod.fst).head?)
    (same : ∀ q ≠ k, links o' q = splice (links o) left right (some k) (some k) q)
    (placed : links o' k = some ⟨left, right⟩) (head : o'.head = redirect left (some k) o.head)
    (tail : o'.tail = redirect right (some k) o.tail)
    (held : ∀ q, contents o' q = l'.get q) : Represents o' l' := by
  subst hl hr
  refine ⟨?_, held⟩
  rw [KeyedList.keys, cut, List.map_append, List.map_cons, head, tail]
  refine link_threaded threaded fresh (fun q hq => same q ?_) placed
  rintro rfl
  exact fresh hq

theorem anchor_run (h : Represents j.order l) {xs ys : List (K × ℕ × ℕ)}
    (cut : l.entries = xs ++ ys) :
    ∃ next, ((ys.map Prod.fst).head?.mapM child).run j = .ok next j ∧
      next.elim j.order.tail KeyedChild.previous = (xs.map Prod.fst).getLast? := by
  cases ys with
  | nil =>
    have htail := h.threaded.tail
    rw [KeyedList.keys, cut, List.append_nil] at htail
    exact ⟨none, rfl, htail⟩
  | cons y ys =>
    have hrun := child_run (child_at h cut)
    have hmap : (some y.1 |>.mapM child).run j = .ok (some _) j := (run_bind_ok hrun).trans rfl
    exact ⟨some _, by simpa using hmap, by simp⟩

theorem insert_run (h : Represents j.order l) (root instanceId : ℕ) {before : Option K}
    (fresh : k ∉ l.keys) (anchored : ∀ a ∈ before, a ∈ l.keys) :
    ∃ t, (KeyedOrderJournal.insert k root instanceId before).run j = .ok () t ∧
      Represents t.order (l.place k (root, instanceId) before fresh) := by
  obtain ⟨xs, ys, cut, hbefore, hhead⟩ := anchor_cut anchored
  have hkeys := keys_cut cut
  obtain ⟨next, hnext, hprevious⟩ := anchor_run h cut
  rw [hhead] at hnext
  have hfree : (j.order.children.get k).isSome = false := by
    simpa using mt (child_is_some h).mp fresh
  generalize hleft : next.elim j.order.tail KeyedChild.previous = left at hprevious
  have hl : ∀ q ∈ left, q ∈ l.keys := fun q hq => mem_keys_of_getLast cut (hprevious ▸ hq)
  -- the new record is written first, so the neighbours are found beside it
  have present (o : Option K) (ho : ∀ q ∈ o, q ∈ l.keys) : ∀ q ∈ o,
      (contents (j.order.withChild k ⟨root, instanceId, left, before⟩) q).isSome := by
    intro q hq
    rw [contents_withChild]
    simp only
    split
    · rfl
    · exact (contents_is_some h).mpr (ho q hq)
  obtain ⟨t, hrun, rewired⟩ := join_run
    (j := { touched k j with order := j.order.withChild k ⟨root, instanceId, left, before⟩ })
    "predecessor" "anchor" (some k) (some k) (present left hl) (present before anchored)
  have away (o : Option K) (ho : ∀ q ∈ o, q ∈ l.keys) : o ≠ some k := by
    rintro rfl
    exact fresh (ho k rfl)
  refine ⟨t, ?_, represents_place (o := j.order) (k := k) (v := (root, instanceId)) ?_ ?_ ?_
    hprevious hhead.symm ?_ ?_ rewired.head rewired.tail ?_⟩
  · simpa only [KeyedOrderJournal.insert, EStateM.run_bind, EStateM.run_get, hfree, hnext, hleft,
      Bool.false_eq_true, if_false, touch_run, putChild_run, touched_order] using hrun
  · exact hkeys ▸ h.threaded
  · exact hkeys ▸ fresh
  · exact place_entries fresh cut hbefore hhead
  · intro q hq
    rw [rewired.links]
    simp only [splice, setPrevious, setNext, links_withChild, if_neg hq]
  · rw [rewired.links, splice_away (away left hl) (away before anchored), links_withChild]
    exact if_pos rfl
  · intro q
    rw [rewired.contents, contents_withChild, KeyedList.get_place]
    simp only [h.contents]

theorem unlink_run (h : Represents j.order l) {v : ℕ × ℕ} {xs ys : List (K × ℕ × ℕ)}
    (cut : l.entries = xs ++ (k, v) :: ys) {c : KeyedChild K} (hc : j.order.children.get k = some c) :
    ∃ t, (unlink c).run j = .ok () t ∧ contents t.order = contents j.order ∧
      Threaded (links t.order) t.order.head t.order.tail (xs.map Prod.fst ++ ys.map Prod.fst) := by
  obtain rfl := Option.some.inj (hc.symm.trans (child_at h cut))
  obtain ⟨t, hrun, rewired⟩ := join_run (j := j) "predecessor" "successor"
    (ys.map Prod.fst).head? (xs.map Prod.fst).getLast?
    (fun q hq => (contents_is_some h).mpr (mem_keys_of_getLast cut hq))
    (fun q hq => (contents_is_some h).mpr (mem_keys_of_head
      (show l.entries = (xs ++ [(k, v)]) ++ ys by simpa using cut) hq))
  refine ⟨t, hrun, rewired.contents, ?_⟩
  have threaded := h.threaded
  rw [KeyedList.keys, cut, List.map_append, List.map_cons] at threaded
  rw [rewired.links, rewired.head, rewired.tail]
  exact unlink_threaded threaded

theorem remove_run (h : Represents j.order l) (hk : k ∈ l.keys) :
    ∃ t, (KeyedOrderJournal.remove k).run j = .ok () t ∧ Represents t.order (l.erase k) := by
  obtain ⟨v, xs, ys, cut⟩ := mem_keys_iff.mp hk
  have hc := child_at h cut
  obtain ⟨t, hrun, held, threaded⟩ := unlink_run h cut hc
  refine ⟨_, (run_bind_ok (child_run hc)).trans ((run_bind_ok hrun).trans
    ((run_bind_ok (touch_run k t)).trans rfl)), ?_, ?_⟩
  · have hkeys : (l.erase k).keys = xs.map Prod.fst ++ ys.map Prod.fst := by
      rw [KeyedList.keys, erase_entries cut, List.map_append]
    rw [hkeys]
    have same : ∀ q ∈ xs.map Prod.fst ++ ys.map Prod.fst, q ≠ k := by
      rintro q hq rfl
      exact l.not_mem_erase q (hkeys ▸ hq)
    simpa only [touched_order] using threaded_congr
      (fun q hq => by simp only [links, FiniteMap.get_remove, if_neg (same q hq)]) threaded
  · intro q
    rw [KeyedList.get_erase, ← h.contents, ← held]
    simp only [contents, touched_order, FiniteMap.get_remove]
    split <;> rfl

theorem mem_keys_of_mem_erase {q : K} (hq : q ∈ (l.erase k).keys) : q ∈ l.keys :=
  (List.filter_sublist.map Prod.fst).subset hq

/-- Moving a key in front of its own successor changes nothing. -/
theorem place_back {v : ℕ × ℕ} {xs ys : List (K × ℕ × ℕ)} {before : Option K}
    (cut : l.entries = xs ++ (k, v) :: ys) (hb : (ys.map Prod.fst).head? = before) :
    (l.erase k).place k v before (l.not_mem_erase k) = l := by
  ext1
  refine (place_entries _ (erase_entries cut) ?_ hb).trans cut.symm
  rintro a ha hx
  have distinct := l.distinct
  rw [cut, List.map_append, List.map_cons, List.nodup_append] at distinct
  exact distinct.2.2 a hx a (List.mem_cons_of_mem k (List.mem_of_mem_head? (hb ▸ ha))) rfl

theorem move_unchanged (h : Represents j.order l) {v : ℕ × ℕ} {xs ys : List (K × ℕ × ℕ)}
    (cut : l.entries = xs ++ (k, v) :: ys) {before : Option K}
    (hb : before = some k ∨ (ys.map Prod.fst).head? = before) :
    (KeyedOrderJournal.moveBefore k before).run j = .ok () j := by
  refine (run_bind_ok (child_run (child_at h cut))).trans ?_
  simp only [hb, if_true]
  rfl

theorem relink_run {t : KeyedOrderJournal K} {v : ℕ × ℕ} {before : Option K}
    (hv : l.get k = some v) (anchored : ∀ a ∈ before, a ∈ (l.erase k).keys)
    (held : ∀ q, contents t.order q = l.get q)
    (threaded : Threaded (links t.order) t.order.head t.order.tail (l.erase k).keys) :
    ∃ u, (relink k before).run t = .ok () u ∧
      Represents u.order ((l.erase k).place k v before (l.not_mem_erase k)) := by
  obtain ⟨as, bs, gap, hbefore, hhead⟩ := anchor_cut anchored
  have hkeys := keys_cut gap
  rw [hkeys] at threaded
  have hleft := gap_before threaded
  rw [hhead] at hleft
  have mounted : ∀ q ∈ (l.erase k).keys, (contents t.order q).isSome := by
    intro q hq
    rw [held, get_is_some]
    exact mem_keys_of_mem_erase hq
  obtain ⟨u, hjoin, rewired⟩ := join_run "move predecessor" "anchor" (some k) (some k)
    (fun q hq => mounted q (mem_keys_of_getLast gap hq)) (fun q hq => mounted q (anchored q hq))
  obtain ⟨d, hd⟩ : ∃ d, u.order.children.get k = some d := by
    apply linked_of_contents
    rw [rewired.contents, held, hv]
    rfl
  obtain ⟨w, hrewrite, hw⟩ := touch_rewrite_run "move key"
    (fun c => { c with previous := (as.map Prod.fst).getLast?, next := before }) hd
  have hrun : (relink k before).run t = .ok () w := by
    rw [relink, run_bind_ok (EStateM.run_get t)]
    simp only [hleft]
    have hjoin := (run_bind_ok (f := fun _ => do touch k; rewrite k "move key" _) hjoin).trans hrewrite
    simpa only [bind_assoc] using hjoin
  have fresh := hkeys ▸ l.not_mem_erase k
  refine ⟨w, hrun, represents_place (k := k) threaded fresh
    (place_entries _ gap hbefore hhead) rfl hhead.symm ?_ ?_ (by rw [hw]; exact rewired.head)
    (by rw [hw]; exact rewired.tail) ?_⟩
  · intro q hq
    rw [hw, links_withChild, rewired.links]
    exact if_neg hq
  · rw [hw, links_withChild]
    exact if_pos rfl
  · intro q
    rw [hw, contents_relinked hd (by rfl), rewired.contents, held, KeyedList.get_place,
      KeyedList.get_erase]
    split
    · rename_i h
      rw [h, hv]
    · rfl

theorem move_run (h : Represents j.order l) {v : ℕ × ℕ} (hv : l.get k = some v)
    {before : Option K} (anchored : ∀ a ∈ before, a ∈ (l.erase k).keys) :
    ∃ t, (KeyedOrderJournal.moveBefore k before).run j = .ok () t ∧
      Represents t.order ((l.erase k).place k v before (l.not_mem_erase k)) := by
  obtain ⟨xs, ys, cut⟩ := get_eq_some_iff.mp hv
  have hc := child_at h cut
  by_cases hb : (ys.map Prod.fst).head? = before
  · exact ⟨j, move_unchanged h cut (.inr hb), (place_back cut hb).symm ▸ h⟩
  have hself : before ≠ some k := by
    rintro rfl
    exact l.not_mem_erase k (anchored k rfl)
  obtain ⟨next, hnext⟩ : ∃ next, (before.mapM child).run j = .ok next j := by
    obtain ⟨xs, ys, cut, -, rfl⟩ := anchor_cut fun a ha => mem_keys_of_mem_erase (anchored a ha)
    obtain ⟨next, hnext, -⟩ := anchor_run h cut
    exact ⟨next, hnext⟩
  obtain ⟨t, hunlink, held, threaded⟩ := unlink_run h cut hc
  rw [← List.map_append, ← erase_entries cut] at threaded
  obtain ⟨u, hrelink, represents⟩ := relink_run hv anchored
    (fun q => (congrFun held q).trans (h.contents q)) threaded
  refine ⟨u, ?_, represents⟩
  rw [KeyedOrderJournal.moveBefore, run_bind_ok (child_run hc), if_neg (not_or.mpr ⟨hself, hb⟩)]
  exact (run_bind_ok hnext).trans ((run_bind_ok hunlink).trans hrelink)

theorem represents_root {o : KeyedChildOrder K} {c : KeyedChild K} (h : Represents o l) (root : ℕ)
    (hc : o.children.get k = some c) :
    Represents (o.withChild k { c with root }) (l.adjust k fun held => (root, held.2)) := by
  constructor
  · rw [KeyedList.keys_adjust]
    refine threaded_congr (fun q _ => ?_) h.threaded
    rw [links_withChild]
    by_cases hq : q = k
    · subst hq
      simp [links, hc]
    · exact if_neg hq
  · intro q
    rw [contents_withChild, KeyedList.get_adjust, ← h.contents]
    by_cases hq : q = k
    · subst hq
      simp [contents, hc]
    · simp only [hq, if_false]

theorem replace_run (h : Represents j.order l) (root : ℕ) (hk : k ∈ l.keys) :
    ∃ t, (KeyedOrderJournal.replace k root).run j = .ok () t ∧
      Represents t.order (l.adjust k fun held => (root, held.2)) := by
  obtain ⟨v, xs, ys, cut⟩ := mem_keys_iff.mp hk
  have hc := child_at h cut
  obtain ⟨t, hrun, ht⟩ := touch_rewrite_run "replace key" (fun c => { c with root }) hc
  exact ⟨t, (run_bind_ok (child_run hc)).trans hrun, ht ▸ represents_root h root hc⟩

end Edits

def reason : Refusal K → KeyedOrderError K
  | .duplicateKey k => .duplicate k
  | .missingKey k => .missing k
  | .missingAnchor k => .missing k

/-- The list edit of the same name. Replacing a root keeps the item's instance. -/
def edit (l : KeyedList K (ℕ × ℕ)) :
    KeyedOrderOperation K → Except (Refusal K) (KeyedList K (ℕ × ℕ))
  | .insert key root instanceId before => l.insertBefore key (root, instanceId) before
  | .remove key => l.remove key
  | .move key before => l.moveBefore key before
  | .replace key root => l.update key fun held => (root, held.2)

section Simulation

variable {j : KeyedOrderJournal K} {l : KeyedList K (ℕ × ℕ)}

/-- A call does what the list edit does: it returns with the edited list, or it
refuses for the same reason with nothing written. -/
def Simulates (j : KeyedOrderJournal K) (m : JournalMethod K Unit)
    (answer : Except (Refusal K) (KeyedList K (ℕ × ℕ))) : Prop :=
  match answer with
  | .ok l => ∃ t, m.run j = .ok () t ∧ Represents t.order l
  | .error r => m.run j = .error (.error (reason r)) j

theorem insert_refines (h : Represents j.order l) (k : K) (root instanceId : ℕ) (before : Option K) :
    Simulates j (KeyedOrderJournal.insert k root instanceId before)
      (l.insertBefore k (root, instanceId) before) := by
  by_cases hk : k ∈ l.keys
  · have hsome := (child_is_some h).mpr hk
    simp [Simulates, KeyedList.insertBefore, hk, KeyedOrderJournal.insert, hsome, reason]
  have hnone : (j.order.children.get k).isSome = false := by
    simpa using mt (child_is_some h).mp hk
  cases before with
  | none =>
    simp only [KeyedList.insertBefore, hk, dite_false, Simulates]
    exact insert_run h root instanceId hk (by simp)
  | some a =>
    by_cases ha : a ∈ l.keys
    · simp only [KeyedList.insertBefore, hk, dite_false, ha, if_true, Simulates]
      exact insert_run h root instanceId hk (by simpa using ha)
    · simp only [KeyedList.insertBefore, hk, dite_false, ha, if_false, Simulates,
        KeyedOrderJournal.insert, reason]
      rw [run_bind_ok (EStateM.run_get j)]
      simp only [hnone, Bool.false_eq_true, if_false]
      exact run_bind_error (anchor_missing h ha)

theorem remove_refines (h : Represents j.order l) (k : K) :
    Simulates j (KeyedOrderJournal.remove k) (l.remove k) := by
  by_cases hk : k ∈ l.keys
  · simp only [KeyedList.remove, hk, if_true, Simulates]
    exact remove_run h hk
  · simp only [KeyedList.remove, hk, if_false, Simulates]
    exact run_bind_error (child_missing h hk)

theorem move_refines (h : Represents j.order l) (k : K) (before : Option K) :
    Simulates j (KeyedOrderJournal.moveBefore k before) (l.moveBefore k before) := by
  cases hv : l.get k with
  | none =>
    have hk : k ∉ l.keys := by simpa [← get_is_some] using hv
    simp only [KeyedList.moveBefore, hv, Simulates]
    exact run_bind_error (child_missing h hk)
  | some v =>
    obtain ⟨xs, ys, cut⟩ := get_eq_some_iff.mp hv
    cases before with
    | none =>
      simp only [KeyedList.moveBefore, hv, Simulates]
      exact move_run h hv (by simp)
    | some a =>
      by_cases hself : a = k
      · subst hself
        simp only [KeyedList.moveBefore, hv, if_true, Simulates]
        exact ⟨j, move_unchanged h cut (.inl rfl), h⟩
      by_cases ha : a ∈ l.keys
      · simp only [KeyedList.moveBefore, hv, hself, if_false, ha, if_true, Simulates]
        refine move_run h hv fun q hq => ?_
        obtain rfl : a = q := by simpa using hq
        rw [← get_is_some, KeyedList.get_erase, if_neg hself, get_is_some]
        exact ha
      · simp only [KeyedList.moveBefore, hv, hself, if_false, ha, Simulates, reason]
        have hnext : (ys.map Prod.fst).head? ≠ some a := fun hq =>
          ha (mem_keys_of_head (show l.entries = (xs ++ [(k, v)]) ++ ys by simpa using cut) hq)
        rw [KeyedOrderJournal.moveBefore, run_bind_ok (child_run (child_at h cut)),
          if_neg (by simpa [hself] using hnext)]
        exact run_bind_error (anchor_missing h ha)

theorem replace_refines (h : Represents j.order l) (k : K) (root : ℕ) :
    Simulates j (KeyedOrderJournal.replace k root) (l.update k fun held => (root, held.2)) := by
  by_cases hk : k ∈ l.keys
  · simp only [KeyedList.update, hk, if_true, Simulates]
    exact replace_run h root hk
  · simp only [KeyedList.update, hk, if_false, Simulates]
    exact run_bind_error (child_missing h hk)

theorem perform_refines (h : Represents j.order l) (op : KeyedOrderOperation K) :
    Simulates j (perform op) (edit l op) := by
  cases op with
  | insert key root instanceId before => exact insert_refines h key root instanceId before
  | remove key => exact remove_refines h key
  | move key before => exact move_refines h key before
  | replace key root => exact replace_refines h key root

end Simulation

section Iteration

variable {o : KeyedChildOrder K} {l : KeyedList K (ℕ × ℕ)}

def item (c : K × KeyedChild K) : K × ℕ × ℕ := (c.1, c.2.root, c.2.instanceId)

omit [DecidableEq K] in
theorem collect_cons {σ β : Type} {step : Method σ Empty (Option β)} {s t u : σ} {b : β}
    {bs : List β} {n : ℕ} (h : step.run s = .ok (some b) t)
    (rest : (collect step n).run t = .ok bs u) :
    (collect step (n + 1)).run s = .ok (b :: bs) u :=
  (run_bind_ok h).trans ((run_bind_ok rest).trans rfl)

theorem next_run {k : K} {c : KeyedChild K} (h : o.children.get k = some c) (b : Option K) (n : ℕ) :
    KeyedChildIter.next.run ⟨o, some k, b, n + 1⟩ = .ok (some (k, c)) ⟨o, c.next, b, n⟩ := by
  rw [KeyedChildIter.next, run_bind_ok (EStateM.run_get _), if_neg n.succ_ne_zero,
    run_bind_ok (expect_run _ k _), h]
  rfl

theorem nextBack_run {k : K} {c : KeyedChild K} (h : o.children.get k = some c) (f : Option K)
    (n : ℕ) :
    KeyedChildIter.nextBack.run ⟨o, f, some k, n + 1⟩ = .ok (some (k, c)) ⟨o, f, c.previous, n⟩ := by
  rw [KeyedChildIter.nextBack, run_bind_ok (EStateM.run_get _), if_neg n.succ_ne_zero,
    run_bind_ok (expect_run _ k _), h]
  rfl

theorem forward_from (h : Represents o l) (b : Option K) (ys : List (K × ℕ × ℕ)) :
    ∀ xs, l.entries = xs ++ ys → ∃ cs it, (collect KeyedChildIter.next (ys.length + 1)).run
      ⟨o, (ys.map Prod.fst).head?, b, ys.length⟩ = .ok cs it ∧ cs.map item = ys := by
  induction ys with
  | nil => exact fun xs _ => ⟨[], _, rfl, rfl⟩
  | cons y ys ih =>
    intro xs cut
    obtain ⟨cs, it, hrun, hcs⟩ := ih (xs ++ [y]) (by simpa using cut)
    refine ⟨_, it, collect_cons (next_run (child_at h cut) b ys.length) hrun, ?_⟩
    rw [List.map_cons, hcs]
    rfl

theorem backward_from (h : Represents o l) (f : Option K) (xs : List (K × ℕ × ℕ)) :
    ∀ ys, l.entries = xs ++ ys → ∃ cs it, (collect KeyedChildIter.nextBack (xs.length + 1)).run
      ⟨o, f, (xs.map Prod.fst).getLast?, xs.length⟩ = .ok cs it ∧ cs.map item = xs.reverse := by
  induction xs using List.reverseRecOn with
  | nil => exact fun ys _ => ⟨[], _, rfl, rfl⟩
  | append_singleton xs x ih =>
    intro ys cut
    have cut : l.entries = xs ++ x :: ys := by simpa using cut
    obtain ⟨cs, it, hrun, hcs⟩ := ih (x :: ys) cut
    rw [List.map_append, List.map_singleton, List.getLast?_append_of_ne_nil _ (by simp),
      List.length_append]
    refine ⟨_, it, collect_cons (nextBack_run (child_at h cut) f xs.length) hrun, ?_⟩
    rw [List.map_cons, hcs, List.reverse_append]
    rfl

theorem size_eq (h : Represents o l) : o.children.size = l.entries.length := by
  rw [FiniteMap.size_eq_length l.distinct fun k => (child_is_some h).symm, List.length_map]

theorem forward_eq (h : Represents o l) : ∃ cs, forward o = .ok cs ∧ cs.map item = l.entries := by
  obtain ⟨cs, it, hrun, hcs⟩ := forward_from h o.tail l.entries [] rfl
  refine ⟨cs, ?_, hcs⟩
  rw [forward, KeyedChildOrder.iter, size_eq h, h.threaded.head]
  exact congrArg answer hrun

theorem backward_eq (h : Represents o l) :
    ∃ cs, backward o = .ok cs ∧ cs.map item = l.entries.reverse := by
  obtain ⟨cs, it, hrun, hcs⟩ := backward_from h o.head l.entries [] (by simp)
  refine ⟨cs, ?_, hcs⟩
  rw [backward, KeyedChildOrder.iter, size_eq h, h.threaded.tail]
  exact congrArg answer hrun

end Iteration

end KeyedOrderLists
