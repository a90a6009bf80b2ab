import RocGui.KeyedListings

/-! The native order of a keyed container: the views of its items in a linked order of their own,
which the edits a transaction emits are replayed on. -/
namespace NativeOrders

open FiniteMaps KeyedLists LinkedOrders Methods KeyedOrder GraphState GraphPatches

structure KeyedViewChild (K V : Type) where
  view : V
  previous : Option K
  next : Option K

structure KeyedViewOrder (K V : Type) where
  head : Option K
  tail : Option K
  children : FiniteMap K (KeyedViewChild K V)

abbrev ViewMethod (K V α : Type) := Method (KeyedViewOrder K V) Empty α

variable {K V : Type} [DecidableEq K]

section Methods

/-- `KeyedViewOrder::default`. -/
def KeyedViewOrder.empty : KeyedViewOrder K V := ⟨none, none, ∅⟩

def putChild (key : K) (child : KeyedViewChild K V) : ViewMethod K V Unit :=
  modify fun o => { o with children := o.children.set key child }

def linkNext (at_ : Option K) (message : String) (target : Option K) : ViewMethod K V Unit :=
  match at_ with
  | some key => do
    let child ← expect message ((← get).children.get key)
    putChild key { child with next := target }
  | none => modify fun o => { o with head := target }

def linkPrevious (at_ : Option K) (message : String) (target : Option K) : ViewMethod K V Unit :=
  match at_ with
  | some key => do
    let child ← expect message ((← get).children.get key)
    putChild key { child with previous := target }
  | none => modify fun o => { o with tail := target }

def previousOf (before : Option K) : ViewMethod K V (Option K) :=
  match before with
  | some anchor => do
    let child ← expect indexError ((← get).children.get anchor)
    return child.previous
  | none => do
    let o ← get
    return o.tail

def insert (key : K) (before : Option K) (view : V) : ViewMethod K V Unit := do
  let previous ← previousOf before
  putChild key ⟨view, previous, before⟩
  linkNext previous "keyed predecessor" (some key)
  linkPrevious before "keyed anchor" (some key)

def remove (key : K) : ViewMethod K V V := do
  let child ← expect "mounted keyed child" ((← get).children.get key)
  modify fun o => { o with children := o.children.remove key }
  linkNext child.previous "keyed predecessor" child.next
  linkPrevious child.next "keyed successor" child.previous
  return child.view

def moveBefore (key : K) (before : Option K) : ViewMethod K V Bool := do
  if before = some key then return false
  let child ← expect indexError ((← get).children.get key)
  if child.next = before then return false
  let view ← remove key
  insert key before view
  return true

structure KeyedViewIter (K V : Type) where
  order : KeyedViewOrder K V
  next : Option K
  remaining : ℕ

def KeyedViewOrder.iter (o : KeyedViewOrder K V) : KeyedViewIter K V := ⟨o, o.head, o.children.size⟩

def KeyedViewIter.advance : Method (KeyedViewIter K V) Empty (Option V) := do
  let it ← get
  if it.remaining = 0 then return none
  let key ← expect "non-empty keyed view order" it.next
  let child ← expect indexError (it.order.children.get key)
  set { it with next := child.next, remaining := it.remaining - 1 }
  return some child.view

def shownViews (o : KeyedViewOrder K V) : Except (Failure Empty) (List V) :=
  answer ((collect KeyedViewIter.advance (o.iter.remaining + 1)).run o.iter)

/-- One edit of the loop in `apply_keyed_to_gpui`. `views` is indexed by the root of an item. -/
def replayEdit (views : ℕ → Option V) : KeyedNativeEdit K → ViewMethod K V Unit
  | .insert key before root => do
    let view ← expect indexError (views root)
    insert key before view
  | .remove key _ => do
    let _ ← remove key
  | .move key before => do
    let _ ← moveBefore key before
  | .set key _ root => do
    let view ← expect indexError (views root)
    let child ← expect "keyed Set child" ((← get).children.get key)
    putChild key { child with view }

def replay (views : ℕ → Option V) (edits : List (KeyedNativeEdit K)) : ViewMethod K V Unit :=
  edits.forM (replayEdit views)

end Methods

section Linking

variable {o t : KeyedViewOrder K V} {l : KeyedList K V} {k : K}

def links (o : KeyedViewOrder K V) : Links K :=
  fun k => (o.children.get k).map fun c => ⟨c.previous, c.next⟩

def viewAt (o : KeyedViewOrder K V) (k : K) : Option V := (o.children.get k).map (·.view)

/-- The children of `o` are the entries of `l`, linked in its order. -/
structure Represents (o : KeyedViewOrder K V) (l : KeyedList K V) : Prop where
  threaded : Threaded (links o) o.head o.tail l.keys
  views : ∀ k, viewAt o k = l.get k

/-- What redirecting the two sides of a gap does to an order. -/
structure Rewired (o t : KeyedViewOrder K V) (left right x y : Option K) : Prop where
  links : links t = splice (links o) left right x y
  views : viewAt t = viewAt o
  head : t.head = redirect left x o.head
  tail : t.tail = redirect right y o.tail

theorem child_of_view (h : (viewAt o k).isSome) : ∃ c, o.children.get k = some c := by
  simpa [viewAt, Option.isSome_iff_exists] using h

theorem put_child_run (k : K) (c : KeyedViewChild K V) (o : KeyedViewOrder K V) :
    (putChild k c).run o = .ok () { o with children := o.children.set k c } := rfl

theorem links_put (o : KeyedViewOrder K V) (k : K) (c : KeyedViewChild K V) :
    links { o with children := o.children.set k c } =
      fun q => if q = k then some ⟨c.previous, c.next⟩ else links o q := by
  funext q
  simp only [links, FiniteMap.get_set]
  split <;> rfl

theorem views_put (o : KeyedViewOrder K V) (k : K) (c : KeyedViewChild K V) :
    viewAt { o with children := o.children.set k c } =
      fun q => if q = k then some c.view else viewAt o q := by
  funext q
  simp only [viewAt, FiniteMap.get_set]
  split <;> rfl

theorem views_relinked {c d : KeyedViewChild K V} (h : o.children.get k = some c)
    (same : d.view = c.view) : viewAt { o with children := o.children.set k d } = viewAt o := by
  rw [views_put]
  funext q
  split
  · rename_i hq
    rw [hq, same, viewAt, h]
    rfl
  · rfl

theorem link_next_run {at_ : Option K} (message : String) (x : Option K)
    (present : ∀ k ∈ at_, (viewAt o k).isSome) :
    ∃ t, (linkNext at_ message x).run o = .ok () t ∧ links t = setNext (links o) at_ x ∧
      viewAt t = viewAt o ∧ t.head = redirect at_ x o.head ∧ t.tail = o.tail := by
  cases at_ with
  | none => exact ⟨_, rfl, by funext k; simp [setNext, links], rfl, rfl, rfl⟩
  | some k =>
    obtain ⟨c, hc⟩ := child_of_view (present k rfl)
    refine ⟨{ o with children := o.children.set k { c with next := x } }, by simp [linkNext, hc, putChild],
      ?_, views_relinked hc rfl, rfl, rfl⟩
    rw [links_put]
    funext q
    by_cases hq : q = k
    · subst hq
      simp [setNext, links, hc]
    · simp [setNext, hq, Ne.symm hq]

theorem link_previous_run {at_ : Option K} (message : String) (x : Option K)
    (present : ∀ k ∈ at_, (viewAt o k).isSome) :
    ∃ t, (linkPrevious at_ message x).run o = .ok () t ∧ links t = setPrevious (links o) at_ x ∧
      viewAt t = viewAt o ∧ t.head = o.head ∧ t.tail = redirect at_ x o.tail := by
  cases at_ with
  | none => exact ⟨_, rfl, by funext k; simp [setPrevious, links], rfl, rfl, rfl⟩
  | some k =>
    obtain ⟨c, hc⟩ := child_of_view (present k rfl)
    refine ⟨{ o with children := o.children.set k { c with previous := x } },
      by simp [linkPrevious, hc, putChild], ?_, views_relinked hc rfl, rfl, rfl⟩
    rw [links_put]
    funext q
    by_cases hq : q = k
    · subst hq
      simp [setPrevious, links, hc]
    · simp [setPrevious, hq, Ne.symm hq]

theorem join_run {left right : Option K} (m n : String) (x y : Option K)
    (hl : ∀ k ∈ left, (viewAt o k).isSome) (hr : ∀ k ∈ right, (viewAt o k).isSome) :
    ∃ t, (do linkNext left m x; linkPrevious right n y : ViewMethod K V Unit).run o = .ok () t ∧
      Rewired o t left right x y := by
  obtain ⟨t, hrun, links, views, head, tail⟩ := link_next_run m x hl
  rw [← views] at hr
  obtain ⟨u, hrun', links', views', head', tail'⟩ := link_previous_run n y hr
  refine ⟨u, (run_bind_ok hrun).trans hrun', ?_, views'.trans views, ?_, ?_⟩
  · rw [links', links, splice]
  · rw [head', head]
  · rw [tail', tail]

theorem view_is_some (h : Represents o l) : (viewAt o k).isSome ↔ k ∈ l.keys := by
  rw [h.views, get_is_some]

theorem child_at (h : Represents o l) {v : V} {xs ys : List (K × V)}
    (cut : l.entries = xs ++ (k, v) :: ys) :
    o.children.get k = some ⟨v, (xs.map Prod.fst).getLast?, (ys.map Prod.fst).head?⟩ := by
  have threaded := h.threaded
  rw [KeyedList.keys, cut, List.map_append, List.map_cons] at threaded
  have hlink := threaded_at threaded
  have hview := (h.views k).trans (get_eq_some_iff.mpr ⟨xs, ys, cut⟩)
  cases hc : o.children.get k with
  | none => simp [links, hc] at hlink
  | some c =>
    simp only [links, hc, Option.map_some, Option.some.injEq, Link.mk.injEq] at hlink
    simp only [viewAt, hc, Option.map_some, Option.some.injEq] at hview
    simp [← hlink.1, ← hlink.2, ← hview]

theorem previous_run (h : Represents o l) {xs ys : List (K × V)} (cut : l.entries = xs ++ ys) :
    (previousOf (ys.map Prod.fst).head?).run o = .ok (xs.map Prod.fst).getLast? o := by
  cases ys with
  | nil =>
    have htail := h.threaded.tail
    rw [KeyedList.keys, cut, List.append_nil] at htail
    simp [-bind_pure_comp, previousOf, htail]
  | cons y ys =>
    have hc := child_at h cut
    simp [-bind_pure_comp, previousOf, hc]

omit [DecidableEq K] in
theorem keys_cut {l : KeyedList K V} {xs ys : List (K × V)} (cut : l.entries = xs ++ ys) :
    l.keys = xs.map Prod.fst ++ ys.map Prod.fst := by
  rw [KeyedList.keys, cut, List.map_append]

theorem insert_run (h : Represents o l) (view : V) {before : Option K} (fresh : k ∉ l.keys)
    (anchored : ∀ a ∈ before, a ∈ l.keys) :
    ∃ t, (insert k before view).run o = .ok () t ∧ Represents t (l.place k view before fresh) := by
  obtain ⟨xs, ys, cut, hbefore, hhead⟩ := anchor_cut anchored
  have hkeys := keys_cut cut
  have hprevious := previous_run h cut
  rw [hhead] at hprevious
  set left := (xs.map Prod.fst).getLast? with hleft
  have hl : ∀ q ∈ left, q ∈ l.keys := fun q hq => by
    rw [hkeys]
    exact List.mem_append_left _ (List.mem_of_getLast? hq)
  -- the new child is put first, so its neighbours are found beside it
  have present (p : Option K) (hp : ∀ q ∈ p, q ∈ l.keys) : ∀ q ∈ p,
      (viewAt { o with children := o.children.set k ⟨view, left, before⟩ } q).isSome := by
    intro q hq
    rw [views_put]
    dsimp only
    split
    · rfl
    · exact (view_is_some h).mpr (hp q hq)
  obtain ⟨t, hrun, rewired⟩ := join_run "keyed predecessor" "keyed anchor" (some k) (some k)
    (present left hl) (present before anchored)
  have away (p : Option K) (hp : ∀ q ∈ p, q ∈ l.keys) : p ≠ some k := by
    rintro rfl
    exact fresh (hp k rfl)
  have rewritten (q : K) (hq : q ≠ k) : links t q = splice (links o) left before (some k) (some k) q := by
    rw [rewired.links, links_put]
    simp only [splice, setPrevious, setNext, if_neg hq]
  refine ⟨t, (run_bind_ok hprevious).trans ((run_bind_ok (put_child_run _ _ _)).trans hrun), ?_, ?_⟩
  · rw [KeyedList.keys, place_entries fresh cut hbefore hhead, List.map_append, List.map_cons,
      rewired.head, rewired.tail, ← hhead]
    refine link_threaded (hkeys ▸ h.threaded) (hkeys ▸ fresh) (fun q hq => ?_) ?_
    · rw [hhead]
      refine rewritten q ?_
      rintro rfl
      exact fresh (hkeys ▸ hq)
    · rw [rewired.links, splice_away (away left hl) (away before anchored), links_put, hhead]
      exact if_pos rfl
  · intro q
    rw [rewired.views, views_put, KeyedList.get_place]
    simp only [h.views]

theorem remove_run (h : Represents o l) {v : V} (hv : l.get k = some v) :
    ∃ t, (remove k).run o = .ok v t ∧ Represents t (l.erase k) := by
  obtain ⟨xs, ys, cut⟩ := get_eq_some_iff.mp hv
  have hc := child_at h cut
  obtain ⟨hx, hy⟩ := cut_not_mem cut
  have hkeys : l.keys = xs.map Prod.fst ++ k :: ys.map Prod.fst := by
    rw [KeyedList.keys, cut, List.map_append, List.map_cons]
  have herased : (l.erase k).keys = xs.map Prod.fst ++ ys.map Prod.fst := by
    rw [KeyedList.keys, erase_entries cut, List.map_append]
  have views (q : K) : viewAt { o with children := o.children.remove k } q = (l.erase k).get q := by
    rw [KeyedList.get_erase, ← h.views]
    simp only [viewAt, FiniteMap.get_remove]
    split <;> rfl
  have present (q : K) (hq : q ∈ (l.erase k).keys) :
      (viewAt { o with children := o.children.remove k } q).isSome := by
    rw [views, get_is_some]
    exact hq
  obtain ⟨t, hrun, rewired⟩ := join_run "keyed predecessor" "keyed successor"
    (ys.map Prod.fst).head? (xs.map Prod.fst).getLast?
    (fun q hq => present q (herased ▸ List.mem_append_left _ (List.mem_of_getLast? hq)))
    (fun q hq => present q (herased ▸ List.mem_append_right _ (List.mem_of_mem_head? hq)))
  refine ⟨t, ?_, ?_, fun q => (congrFun rewired.views q).trans (views q)⟩
  · have hjoin := (run_bind_ok (f := fun _ => pure v) hrun).trans rfl
    simpa [remove, hc] using hjoin
  · have threaded := h.threaded
    rw [hkeys] at threaded
    rw [herased, rewired.head, rewired.tail]
    refine threaded_congr (fun q hq => ?_) (unlink_threaded threaded)
    have hne : q ≠ k := by
      rintro rfl
      exact (List.mem_append.mp hq).elim hx hy
    rw [rewired.links]
    simp only [splice, setPrevious, setNext, links, FiniteMap.get_remove, if_neg hne]

theorem place_back {v : V} {xs ys : List (K × V)} {before : Option K}
    (cut : l.entries = xs ++ (k, v) :: ys) (hb : (ys.map Prod.fst).head? = before) :
    (l.erase k).place k v before (l.not_mem_erase k) = l := by
  ext1
  refine (place_entries _ (erase_entries cut) ?_ hb).trans cut.symm
  rintro a ha hx
  have distinct := l.distinct
  rw [cut, List.map_append, List.map_cons, List.nodup_append] at distinct
  exact distinct.2.2 a hx a (List.mem_cons_of_mem k (List.mem_of_mem_head? (hb ▸ ha))) rfl

theorem move_run (h : Represents o l) {v : V} (hv : l.get k = some v) {before : Option K}
    (anchored : ∀ a ∈ before, a ∈ (l.erase k).keys) :
    ∃ moved t, (moveBefore k before).run o = .ok moved t ∧
      Represents t ((l.erase k).place k v before (l.not_mem_erase k)) := by
  obtain ⟨xs, ys, cut⟩ := get_eq_some_iff.mp hv
  have hc := child_at h cut
  have hself : before ≠ some k := by
    rintro rfl
    exact l.not_mem_erase k (anchored k rfl)
  by_cases hb : (ys.map Prod.fst).head? = before
  · refine ⟨false, o, ?_, (place_back cut hb).symm ▸ h⟩
    simp [moveBefore, hself, hc, hb]
  · obtain ⟨t, hremove, erased⟩ := remove_run h hv
    obtain ⟨u, hinsert, placed⟩ := insert_run erased v (l.not_mem_erase k) anchored
    refine ⟨true, u, ?_, placed⟩
    rw [moveBefore, if_neg hself, run_bind_ok (EStateM.run_get o), hc, run_bind_ok (expect_run _ _ o),
      if_neg hb]
    exact (run_bind_ok hremove).trans ((run_bind_ok hinsert).trans rfl)

theorem set_run (h : Represents o l) {v : V} (hv : l.get k = some v) (view : V) :
    ∃ c, o.children.get k = some c ∧
      Represents { o with children := o.children.set k { c with view } } (l.adjust k fun _ => view) := by
  obtain ⟨xs, ys, cut⟩ := get_eq_some_iff.mp hv
  have hc := child_at h cut
  refine ⟨_, hc, ?_, fun q => ?_⟩
  · rw [KeyedList.keys_adjust]
    refine threaded_congr (fun q _ => ?_) h.threaded
    rw [links_put]
    dsimp only
    split
    · rename_i hq
      rw [hq, links, hc]
      rfl
    · rfl
  · rw [views_put, KeyedList.get_adjust, ← h.views]
    dsimp only
    split
    · rename_i hq
      rw [hq, viewAt, hc]
      rfl
    · rfl

theorem advance_run {c : KeyedViewChild K V} (h : o.children.get k = some c) (n : ℕ) :
    KeyedViewIter.advance.run ⟨o, some k, n + 1⟩ = .ok (some c.view) ⟨o, c.next, n⟩ := by
  simp [-bind_pure_comp, KeyedViewIter.advance, h]

theorem shown_from (h : Represents o l) (ys : List (K × V)) :
    ∀ xs, l.entries = xs ++ ys → ∃ it, (collect KeyedViewIter.advance (ys.length + 1)).run
      ⟨o, (ys.map Prod.fst).head?, ys.length⟩ = .ok (ys.map Prod.snd) it := by
  induction ys with
  | nil => exact fun xs _ => ⟨_, rfl⟩
  | cons y ys ih =>
    intro xs cut
    obtain ⟨it, hrun⟩ := ih (xs ++ [y]) (by simpa using cut)
    exact ⟨it, KeyedOrderLists.collect_cons (advance_run (child_at h cut) ys.length) hrun⟩

theorem shown_views (h : Represents o l) : shownViews o = .ok (l.entries.map Prod.snd) := by
  obtain ⟨it, hrun⟩ := shown_from h l.entries [] rfl
  have size : o.children.size = l.entries.length := by
    rw [FiniteMap.size_eq_length l.distinct fun k => ?_, List.length_map]
    rw [← Option.isSome_map, ← viewAt, h.views, get_is_some]
    rfl
  rw [shownViews, KeyedViewOrder.iter, size, h.threaded.head]
  exact congrArg answer hrun

end Linking

end NativeOrders
