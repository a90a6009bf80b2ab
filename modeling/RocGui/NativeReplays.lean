import RocGui.GraphRuns
import RocGui.NativeOrders

/-! The edits an accepted keyed transaction emits, replayed on the native order: it ends up with the
views of the container's children, in their order. -/
namespace NativeReplays

open FiniteMaps KeyedLists Methods KeyedOrder GraphState GraphPatches FragmentTrees FragmentValidation
open GraphForests GraphMounting GraphGrafts GraphRuns KeyedStaging KeyedTransactions NativeOrders Transitions

section Lists

variable {K V W : Type}

def mapValues (f : V → W) (l : KeyedList K V) : KeyedList K W where
  entries := l.entries.map fun entry => (entry.1, f entry.2)
  distinct := by
    rw [List.map_map]
    exact l.distinct

theorem keys_map (f : V → W) (l : KeyedList K V) : (mapValues f l).keys = l.keys := by
  rw [KeyedList.keys, mapValues, List.map_map]
  rfl

variable [DecidableEq K] {f : V → W} {l : KeyedList K V} {k : K} {v : V} {before : Option K}

theorem get_map : (mapValues f l).get k = (l.get k).map f := by
  have lookup (es : List (K × V)) :
      (es.map fun entry => (entry.1, f entry.2)).lookup k = (es.lookup k).map f := by
    induction es with
    | nil => rfl
    | cons e es ih =>
      rw [List.map_cons, lookup_cons, lookup_cons, ih]
      split <;> rfl
  exact lookup l.entries

theorem map_place (fresh : k ∉ l.keys) (fresh' : k ∉ (mapValues f l).keys) :
    mapValues f (l.place k v before fresh) = (mapValues f l).place k (f v) before fresh' := by
  have inserted (es : List (K × V)) : (insertEntry (k, v) before es).map (fun e => (e.1, f e.2)) =
      insertEntry (k, f v) before (es.map fun e => (e.1, f e.2)) := by
    induction es with
    | nil => rfl
    | cons e es ih =>
      rw [insertEntry, List.map_cons, insertEntry]
      split
      · rfl
      · rw [List.map_cons, ih]
  exact KeyedList.ext (inserted l.entries)

theorem map_erase : mapValues f (l.erase k) = (mapValues f l).erase k := by
  have erased (es : List (K × V)) : (es.filter (·.1 ≠ k)).map (fun e => (e.1, f e.2)) =
      (es.map fun e => (e.1, f e.2)).filter (·.1 ≠ k) := by
    rw [List.filter_map]
    rfl
  exact KeyedList.ext (erased l.entries)

theorem map_adjust {g : V → V} {u : W → W} (same : ∀ v, f (g v) = u (f v)) :
    mapValues f (l.adjust k g) = (mapValues f l).adjust k u := by
  refine KeyedList.ext ?_
  change (l.entries.map _).map _ = (l.entries.map _).map _
  rw [List.map_map, List.map_map]
  refine List.map_congr_left fun e _ => ?_
  simp only [Function.comp_apply]
  split
  · rw [same]
  · rfl

theorem place_congr {l l' : KeyedList K V} {v v' : V} (hl : l = l') (hv : v = v') (fresh : k ∉ l.keys)
    (fresh' : k ∉ l'.keys) : l.place k v before fresh = l'.place k v' before fresh' := by
  subst hl hv
  rfl

theorem insert_ok {l' : KeyedList K V} (h : l.insertBefore k v before = .ok l') :
    ∃ fresh, (∀ a ∈ before, a ∈ l.keys) ∧ l' = l.place k v before fresh := by
  unfold KeyedList.insertBefore at h
  split at h
  · cases h
  rename_i fresh
  refine ⟨fresh, ?_⟩
  split at h
  · exact ⟨by simp, (Except.ok.inj h).symm⟩
  · split at h
    · rename_i hanchor
      refine ⟨?_, (Except.ok.inj h).symm⟩
      rintro a ⟨⟩
      exact hanchor
    · cases h

theorem move_ok {l' : KeyedList K V} (h : l.moveBefore k before = .ok l') :
    ∃ v, l.get k = some v ∧ (before = some k ∧ l' = l ∨
      (∀ a ∈ before, a ∈ (l.erase k).keys) ∧ l' = (l.erase k).place k v before (l.not_mem_erase k)) := by
  unfold KeyedList.moveBefore at h
  split at h
  · cases h
  rename_i v hv
  refine ⟨v, hv, ?_⟩
  split at h
  · exact .inr ⟨by simp, (Except.ok.inj h).symm⟩
  rename_i anchor
  split at h
  · rename_i heq
    exact .inl ⟨congrArg some heq, (Except.ok.inj h).symm⟩
  rename_i hne
  split at h
  · rename_i hanchor
    refine .inr ⟨?_, (Except.ok.inj h).symm⟩
    rintro a ⟨⟩
    rw [← get_is_some, KeyedList.get_erase, if_neg hne, get_is_some]
    exact hanchor
  · cases h

end Lists

section Replaying

variable {K V : Type} [DecidableEq K] {views : ℕ → Option V} {l l' : KeyedList K (ℕ × ℕ)}
  {shown : KeyedList K V} {o : KeyedViewOrder K V}

def installs : KeyedNativeEdit K → Option (K × ℕ)
  | .insert key _ root | .set key _ root => some (key, root)
  | .remove _ _ | .move _ _ => none

/-- The edit of the order that a native edit repeats. -/
def orderOperation (instanceId : ℕ) : KeyedNativeEdit K → KeyedOrderOperation K
  | .insert key before root => .insert key root instanceId before
  | .remove key _ => .remove key
  | .move key before => .move key before
  | .set key _ root => .replace key root

def Shown (views : ℕ → Option V) (l : KeyedList K (ℕ × ℕ)) (shown : KeyedList K V) : Prop :=
  mapValues (fun item => views item.1) l = mapValues some shown

omit [DecidableEq K] in
theorem shown_keys (s : Shown views l shown) : shown.keys = l.keys := by
  have := congrArg KeyedList.keys s
  rw [keys_map, keys_map] at this
  exact this.symm

theorem shown_get (s : Shown views l shown) {k : K} {item : ℕ × ℕ} (h : l.get k = some item) :
    ∃ view, shown.get k = some view ∧ views item.1 = some view := by
  have := congrArg (KeyedList.get · k) s
  simp only [get_map, h, Option.map_some] at this
  obtain ⟨view, hview, heq⟩ := Option.map_eq_some_iff.mp this.symm
  exact ⟨view, hview, heq.symm⟩

theorem shown_place (s : Shown views l shown) {k : K} {item : ℕ × ℕ} {view : V} {before : Option K}
    (hview : views item.1 = some view) (fresh : k ∉ l.keys) (fresh' : k ∉ shown.keys) :
    Shown views (l.place k item before fresh) (shown.place k view before fresh') := by
  rw [Shown, map_place fresh (by rwa [keys_map]), map_place fresh' (by rwa [keys_map])]
  exact place_congr s hview _ _

theorem shown_erase (s : Shown views l shown) (k : K) : Shown views (l.erase k) (shown.erase k) := by
  rw [Shown, map_erase, map_erase, s]

theorem replay_edit_run (h : Represents o shown) (s : Shown views l shown) {edit : KeyedNativeEdit K}
    {i : ℕ} (he : KeyedOrderLists.edit l (orderOperation i edit) = .ok l')
    (known : ∀ item ∈ installs edit, (views item.2).isSome) :
    ∃ o' shown', (replayEdit views edit).run o = .ok () o' ∧ Represents o' shown' ∧
      Shown views l' shown' := by
  cases edit with
  | insert key before root =>
    obtain ⟨fresh, anchored, rfl⟩ := insert_ok he
    obtain ⟨view, hview⟩ := Option.isSome_iff_exists.mp (known (key, root) rfl)
    have fresh' : key ∉ shown.keys := by rwa [shown_keys s]
    obtain ⟨o', hrun, represents⟩ := insert_run h view fresh' fun a ha => by
      rw [shown_keys s]
      exact anchored a ha
    refine ⟨o', _, ?_, represents, shown_place s hview fresh fresh'⟩
    rw [replayEdit, hview]
    exact (run_bind_ok (expect_run _ _ o)).trans hrun
  | remove key root =>
    change l.remove key = .ok l' at he
    unfold KeyedList.remove at he
    split at he
    · rename_i hkey
      obtain rfl := Except.ok.inj he
      obtain ⟨item, hitem⟩ := Option.isSome_iff_exists.mp (get_is_some.mpr hkey)
      obtain ⟨view, hview, -⟩ := shown_get s hitem
      obtain ⟨o', hrun, represents⟩ := remove_run h hview
      exact ⟨o', _, (run_bind_ok hrun).trans rfl, represents, shown_erase s key⟩
    · cases he
  | move key before =>
    obtain ⟨item, hitem, ⟨rfl, rfl⟩ | ⟨anchored, rfl⟩⟩ := move_ok he
    · exact ⟨o, shown, by simp [replayEdit, moveBefore], h, s⟩
    · obtain ⟨view, hview, hshown⟩ := shown_get s hitem
      have anchored' : ∀ a ∈ before, a ∈ (shown.erase key).keys := fun a ha => by
        rw [shown_keys (shown_erase s key)]
        exact anchored a ha
      obtain ⟨moved, o', hrun, represents⟩ := move_run h hview anchored'
      exact ⟨o', _, (run_bind_ok hrun).trans rfl, represents,
        shown_place (shown_erase s key) hshown _ _⟩
  | set key oldRoot root =>
    change l.update key (fun held => (root, held.2)) = .ok l' at he
    unfold KeyedList.update at he
    split at he
    · rename_i hkey
      obtain rfl := Except.ok.inj he
      obtain ⟨item, hitem⟩ := Option.isSome_iff_exists.mp (get_is_some.mpr hkey)
      obtain ⟨old, hold, -⟩ := shown_get s hitem
      obtain ⟨view, hview⟩ := Option.isSome_iff_exists.mp (known (key, root) rfl)
      obtain ⟨c, hc, represents⟩ := set_run h hold view
      refine ⟨_, _, ?_, represents, ?_⟩
      · simp [replayEdit, hview, hc, putChild]
      · rw [Shown, map_adjust (f := fun item : ℕ × ℕ => views item.1) (u := fun _ => some view)
          fun _ => hview, map_adjust (u := fun _ => some view) fun _ => rfl, s]
    · cases he

def Edited : List (KeyedNativeEdit K) → KeyedList K (ℕ × ℕ) → KeyedList K (ℕ × ℕ) → Prop
  | [], l, l' => l' = l
  | edit :: edits, l, l' =>
    ∃ m i, KeyedOrderLists.edit l (orderOperation i edit) = .ok m ∧ Edited edits m l'

theorem replay_run {edits : List (KeyedNativeEdit K)} (h : Represents o shown) (s : Shown views l shown)
    (edited : Edited edits l l') (known : ∀ edit ∈ edits, ∀ item ∈ installs edit, (views item.2).isSome) :
    ∃ o' shown', (replay views edits).run o = .ok () o' ∧ Represents o' shown' ∧
      Shown views l' shown' := by
  induction edits generalizing o l shown with
  | nil =>
    obtain rfl : l' = l := edited
    exact ⟨o, shown, rfl, h, s⟩
  | cons edit edits ih =>
    obtain ⟨m, i, hm, hrest⟩ := edited
    obtain ⟨t, between, hone, represents, s'⟩ := replay_edit_run h s hm (known edit List.mem_cons_self)
    obtain ⟨o', shown', hall, represents', s''⟩ :=
      ih represents s' hrest fun e he => known e (List.mem_cons_of_mem _ he)
    exact ⟨o', shown', forM_cons_ok.mpr ⟨t, hone, hall⟩, represents', s''⟩

/-- A replay that ends has found every view it asked for. -/
theorem replay_known {edits : List (KeyedNativeEdit K)} {o' : KeyedViewOrder K V} {u : Unit}
    (hrun : (replay views edits).run o = .ok u o') :
    ∀ edit ∈ edits, ∀ item ∈ installs edit, (views item.2).isSome := by
  induction edits generalizing o with
  | nil => simp
  | cons edit edits ih =>
    obtain ⟨t, hone, hrest⟩ := forM_cons_ok.mp hrun
    intro e he item hitem
    rcases List.mem_cons.mp he with rfl | he
    · cases e with
      | insert key before r | set key old r =>
        obtain rfl : (key, r) = item := Option.some.inj hitem
        obtain ⟨view, t', hview, -⟩ := bind_ok.mp hone
        exact Option.isSome_of_eq_some (expect_ok.mp hview).1
      | remove | move => cases hitem
    · exact ih hrest e he item hitem

end Replaying

section Lasting

variable {K : Type} [DecidableEq K] {l m l' : KeyedList K (ℕ × ℕ)} {edits : List (KeyedNativeEdit K)}
  {edit : KeyedNativeEdit K} {k : K} {r i : ℕ}

def filled : KeyedOrderOperation K → Option K
  | .insert key _ _ _ | .replace key _ => some key
  | .remove _ | .move _ _ => none

def emptied : KeyedOrderOperation K → Option K
  | .remove key | .replace key _ => some key
  | .insert _ _ _ _ | .move _ _ => none

/-- No operation takes away a root that one before it put in. -/
def Lasting (operations : List (KeyedOrderOperation K)) : Prop :=
  operations.Pairwise fun earlier later => ∀ key ∈ filled earlier, key ∉ emptied later

instance (operations : List (KeyedOrderOperation K)) : Decidable (Lasting operations) :=
  inferInstanceAs (Decidable (operations.Pairwise _))

theorem edit_fills (h : KeyedOrderLists.edit l (orderOperation i edit) = .ok m)
    (hk : (k, r) ∈ installs edit) : ∃ i, m.get k = some (r, i) := by
  cases edit with
  | insert key before root =>
    obtain ⟨rfl, rfl⟩ := Prod.mk.inj (Option.some.inj hk)
    exact ⟨i, ((insert_get h).2 key).trans (if_pos rfl)⟩
  | set key old root =>
    obtain ⟨rfl, rfl⟩ := Prod.mk.inj (Option.some.inj hk)
    change l.update key _ = _ at h
    have hget := update_get h key
    rw [if_pos rfl] at hget
    unfold KeyedList.update at h
    split at h
    · rename_i hkey
      obtain ⟨item, hitem⟩ := Option.isSome_iff_exists.mp (get_is_some.mpr hkey)
      exact ⟨item.2, by rw [hget, hitem]; rfl⟩
    · cases h
  | remove | move => cases hk

theorem edit_gone (h : KeyedOrderLists.edit l (orderOperation i edit) = .ok m)
    (gone : ∀ i, l.get k ≠ some (r, i)) (other : (k, r) ∉ installs edit) (q : ℕ) :
    m.get k ≠ some (r, q) := by
  intro hget
  cases edit with
  | insert key before root =>
    rw [(insert_get h).2] at hget
    split at hget
    · rename_i hk
      cases hget
      exact other (hk ▸ rfl)
    · exact gone q hget
  | remove key old =>
    rw [remove_get h] at hget
    split at hget
    · cases hget
    · exact gone q hget
  | move key before =>
    rw [move_get h] at hget
    exact gone q hget
  | set key old root =>
    rw [update_get h] at hget
    split at hget
    · rename_i hk
      obtain ⟨item, -, heq⟩ := Option.map_eq_some_iff.mp hget
      obtain rfl : root = r := congrArg Prod.fst heq
      exact other (hk ▸ rfl)
    · exact gone q hget

theorem edit_keeps (h : KeyedOrderLists.edit l (orderOperation i edit) = .ok m)
    (held : ∃ i, l.get k = some (r, i)) (other : (k, r) ∉ installs edit) :
    (∃ i, m.get k = some (r, i)) ↔ k ∉ emptied (orderOperation 0 edit) := by
  obtain ⟨q, hq⟩ := held
  cases edit with
  | insert key before root =>
    obtain ⟨fresh, hget⟩ := insert_get h
    refine iff_of_true ⟨q, ?_⟩ (by simp [orderOperation, emptied])
    rw [hget, if_neg, hq]
    rintro rfl
    exact fresh (get_is_some.mp (Option.isSome_of_eq_some hq))
  | remove key old =>
    simp only [remove_get h, orderOperation, emptied, Option.mem_def, Option.some.injEq]
    split
    · rename_i hk
      exact iff_of_false (by simp) (not_not.mpr hk.symm)
    · rename_i hk
      exact iff_of_true ⟨q, hq⟩ (Ne.symm hk)
  | move key before =>
    exact iff_of_true ⟨q, (move_get h k).trans hq⟩ (by simp [orderOperation, emptied])
  | set key old root =>
    simp only [update_get h, orderOperation, emptied, Option.mem_def, Option.some.injEq]
    split
    · rename_i hk
      refine iff_of_false ?_ (not_not.mpr hk.symm)
      rintro ⟨i, hi⟩
      obtain ⟨item, -, heq⟩ := Option.map_eq_some_iff.mp hi
      obtain rfl : root = r := congrArg Prod.fst heq
      exact other (hk ▸ rfl)
    · rename_i hk
      exact iff_of_true ⟨q, hq⟩ (Ne.symm hk)

theorem edited_gone (h : Edited edits l l') (gone : ∀ i, l.get k ≠ some (r, i))
    (other : ∀ edit ∈ edits, (k, r) ∉ installs edit) : ∀ i, l'.get k ≠ some (r, i) := by
  induction edits generalizing l with
  | nil =>
    obtain rfl : l' = l := h
    exact gone
  | cons edit edits ih =>
    obtain ⟨m, i, hm, hrest⟩ := h
    exact ih hrest (edit_gone hm gone (other edit List.mem_cons_self))
      fun e he => other e (List.mem_cons_of_mem _ he)

theorem edited_keeps (h : Edited edits l l') (held : ∃ i, l.get k = some (r, i))
    (other : ∀ edit ∈ edits, (k, r) ∉ installs edit) :
    (∃ i, l'.get k = some (r, i)) ↔ ∀ edit ∈ edits, k ∉ emptied (orderOperation 0 edit) := by
  induction edits generalizing l with
  | nil =>
    obtain rfl : l' = l := h
    exact iff_of_true held (by simp)
  | cons edit edits ih =>
    obtain ⟨m, i, hm, hrest⟩ := h
    have later : ∀ e ∈ edits, (k, r) ∉ installs e := fun e he => other e (List.mem_cons_of_mem _ he)
    have step := edit_keeps hm held (other edit List.mem_cons_self)
    rw [List.forall_mem_cons, ← step]
    by_cases kept : ∃ i, m.get k = some (r, i)
    · rw [ih hrest kept later]
      exact (and_iff_right kept).symm
    · refine iff_of_false ?_ fun both => kept both.1
      rintro ⟨i, hi⟩
      exact edited_gone hrest (fun i hi => kept ⟨i, hi⟩) later i hi

theorem edited_lasting (h : Edited edits l l') (distinct : (edits.filterMap installs).Nodup) :
    (∀ item ∈ edits.filterMap installs, ∃ i, l'.get item.1 = some (item.2, i)) ↔
      Lasting (edits.map (orderOperation 0)) := by
  induction edits generalizing l with
  | nil => exact iff_of_true (by simp) List.Pairwise.nil
  | cons edit edits ih =>
    obtain ⟨m, i, hm, hrest⟩ := h
    rw [Lasting, List.map_cons, List.pairwise_cons, List.forall_mem_map]
    cases hinstalls : installs edit with
    | none =>
      rw [List.filterMap_cons_none hinstalls] at distinct ⊢
      rw [ih hrest distinct]
      refine (and_iff_right fun e _ key hkey => ?_).symm
      cases edit with
      | insert | set => cases hinstalls
      | remove | move => cases hkey
    | some item =>
      obtain ⟨k, r⟩ := item
      rw [List.filterMap_cons_some hinstalls] at distinct ⊢
      obtain ⟨fresh, distinct⟩ := List.nodup_cons.mp distinct
      have other : ∀ e ∈ edits, (k, r) ∉ installs e := fun e he hk =>
        fresh (List.mem_filterMap.mpr ⟨e, he, hk⟩)
      have key : filled (orderOperation 0 edit) = some k := by
        cases edit with
        | insert | set => exact congrArg (Option.map Prod.fst) hinstalls
        | remove | move => cases hinstalls
      rw [List.forall_mem_cons, ih hrest distinct, edited_keeps hrest (edit_fills hm hinstalls) other]
      simp only [key, Option.mem_def, Option.some.injEq, forall_eq']
      exact Iff.rfl

end Lasting

section Staged

variable {K : Type} [DecidableEq K] {g : MountedGraph K} {owner : Option ℕ} {base : KeyedChildOrder K}
  {l₀ l : KeyedList K (ℕ × ℕ)} {progress progress' : KeyedProgress K} {j j' : KeyedOrderJournal K}

def stagedItems (fragments : List (FragmentPlan K)) : List (K × ℕ) :=
  fragments.map fun f => (f.key, f.root)

theorem staged_edit {op : KeyedGraphOperation K}
    (hrun : (stageOperation g owner progress op).run j = .ok progress' j') :
    ∃ edit, progress'.nativeEdits = progress.nativeEdits ++ [edit] ∧
      (∀ i, orderOperation i edit = orderEdit i op) ∧
      stagedItems progress'.fragments = stagedItems progress.fragments ++ (installs edit).toList := by
  cases op with
  | insert key before root nodes =>
    simp only [stageOperation, bind_ok, pure_ok] at hrun
    obtain ⟨_, _, -, _, _, -, _, _, -, _, _, -, rfl, -⟩ := hrun
    exact ⟨_, rfl, fun _ => rfl, by simp [stagedItems, KeyedProgress.push, installs]⟩
  | remove key =>
    simp only [stageOperation, bind_ok, pure_ok] at hrun
    obtain ⟨_, _, -, _, _, -, rfl, -⟩ := hrun
    exact ⟨_, rfl, fun _ => rfl, by simp [KeyedProgress.note, installs]⟩
  | move key before =>
    simp only [stageOperation, bind_ok, pure_ok] at hrun
    obtain ⟨_, _, -, rfl, -⟩ := hrun
    exact ⟨_, rfl, fun _ => rfl, by simp [KeyedProgress.note, installs]⟩
  | set key root nodes =>
    simp only [stageOperation, bind_ok] at hrun
    obtain ⟨_, _, -, _, _, -, _, _, -, hrun⟩ := hrun
    split at hrun
    · obtain ⟨_, _, hrefused, -⟩ := bind_ok.mp hrun
      cases hrefused
    simp only [bind_ok, pure_ok] at hrun
    obtain ⟨_, _, -, _, _, -, rfl, -⟩ := hrun
    exact ⟨_, rfl, fun _ => rfl, by simp [stagedItems, KeyedProgress.push, installs]⟩

theorem staged_edits (s : Staging g base l₀ progress j l) {ops : List (KeyedGraphOperation K)}
    (hrun : (ops.foldlM (stageOperation g owner) progress).run j = .ok progress' j') :
    ∃ l' edits, Staging g base l₀ progress' j' l' ∧ Edited edits l l' ∧
      progress'.nativeEdits = progress.nativeEdits ++ edits ∧
      edits.map (orderOperation 0) = ops.map (orderEdit 0) ∧
      stagedItems progress'.fragments = stagedItems progress.fragments ++ edits.filterMap installs := by
  induction ops generalizing progress j l with
  | nil =>
    obtain ⟨rfl, rfl⟩ := foldlM_nil_ok.mp hrun
    exact ⟨l, [], s, rfl, by simp, rfl, by simp⟩
  | cons op ops ih =>
    obtain ⟨next, t, hop, hrest⟩ := foldlM_cons_ok.mp hrun
    obtain ⟨m, i, hm, s'⟩ := stage_operation s hop
    obtain ⟨edit, hedit, same, hitems⟩ := staged_edit hop
    obtain ⟨l', edits, s'', edited, hedits, hsame, hall⟩ := ih s' hrest
    refine ⟨l', edit :: edits, s'', ⟨m, i, same i ▸ hm, edited⟩, ?_, ?_, ?_⟩
    · rw [hedits, hedit, List.append_assoc, List.singleton_append]
    · rw [List.map_cons, List.map_cons, same, hsame]
    · rw [hall, hitems, List.append_assoc]
      cases hinstalls : installs edit with
      | none => rw [List.filterMap_cons_none hinstalls, Option.toList_none, List.nil_append]
      | some item => rw [List.filterMap_cons_some hinstalls, Option.toList_some, List.singleton_append]

end Staged

section Committed

variable {K : Type} [DecidableEq K] {g v : MountedGraph K} {container newRevision : ℕ}
  {entry : MountedNode K} {l₀ l : KeyedList K (ℕ × ℕ)} {prepared : PreparedFragments K}
  {j : KeyedOrderJournal K} {operations : List (KeyedGraphOperation K)} {owner : Option ℕ}
  {hashOrder : Enumeration K (Option (KeyedChild K))}

structure Emitted (g : MountedGraph K) (operations : List (KeyedGraphOperation K))
    (prepared : PreparedFragments K) (l₀ l : KeyedList K (ℕ × ℕ)) : Prop where
  edited : Edited prepared.nativeEdits l₀ l
  operations : prepared.nativeEdits.map (orderOperation 0) = operations.map (orderEdit 0)
  distinct : (prepared.nativeEdits.filterMap installs).Nodup
  fresh : ∀ item ∈ prepared.nativeEdits.filterMap installs, g.maxSeenNodeId < item.2
  kept : ∀ item ∈ prepared.nativeEdits.filterMap installs,
    item.2 ∈ ids (stagedNodes prepared.fragments) → ∃ i, l.get item.1 = some (item.2, i)

theorem prepare_emitted (base : KeyedOrderLists.Represents (entry.keyedChildren.getD .empty) l₀)
    (hrun : (prepare hashOrder (withOrder container entry none g) owner operations).run
      (.new (entry.keyedChildren.getD .empty)) = .ok prepared j) :
    ∃ l, KeyedOrderLists.Represents j.order l ∧ Emitted g operations prepared l₀ l := by
  simp only [prepare, bind_ok, get_ok, ofExcept_run_ok, pure_ok] at hrun
  obtain ⟨progress, t, hstage, _, _, ⟨rfl, rfl⟩, walks, _, ⟨-, rfl⟩, seen, _, ⟨-, rfl⟩, rfl, rfl⟩ := hrun
  obtain ⟨l, edits, s, edited, hedits, hsame, hitems⟩ := staged_edits (staging_start base) hstage
  obtain rfl : progress.nativeEdits = edits := hedits
  replace hitems : stagedItems progress.fragments = progress.nativeEdits.filterMap installs := hitems
  have listed {f : FragmentPlan K} (hf : f ∈ progress.fragments) : f.root ∈ ids f.nodes :=
    (s.fragments f hf).root_listed.resolve_right (Finset.notMem_empty _)
  have staged {f : FragmentPlan K} (hf : f ∈ progress.fragments) {x : ℕ} (hx : x ∈ ids f.nodes) :
      x ∈ ids (stagedNodes progress.fragments) := mem_ids_staged.mpr ⟨f, hf, hx⟩
  refine ⟨l, s.represents, edited, hsame, ?_, ?_, ?_⟩
  · rw [← hitems]
    refine List.Nodup.of_map Prod.snd ?_
    rw [stagedItems, List.map_map]
    exact roots_nodup s.fragments s.distinct
  · rw [← hitems]
    rintro item hitem
    obtain ⟨f, hf, rfl⟩ := List.mem_map.mp hitem
    exact s.fresh f.root ((s.staged f.root).mpr (staged hf (listed hf)))
  · rw [← hitems]
    rintro item hitem hid
    obtain ⟨f, hf, rfl⟩ := List.mem_map.mp hitem
    obtain ⟨f', hf', hx⟩ := mem_ids_staged.mp hid
    obtain ⟨hmem, hkept⟩ := List.mem_filter.mp hf'
    -- the ids of two fragments are apart
    obtain rfl : f = f' := by
      by_contra hne
      have distinct := s.distinct
      rw [ids, stagedNodes, List.map_flatMap, List.nodup_flatMap] at distinct
      have symmetric : Std.Symm (Function.onFun List.Disjoint fun f : FragmentPlan K =>
          f.nodes.map (·.id)) := ⟨fun _ _ h => h.symm⟩
      exact distinct.2.forall hf hmem hne (listed hf) hx
    rw [survives, decide_eq_true_eq] at hkept
    exact (represents_child s.represents).mpr hkept

/-- The container ends up with the journal's order. -/
theorem commit_order {a : KeyedGraphApply K}
    (hrun : (commitKeyed container newRevision j prepared g.dialog).run
      (withOrder container entry none g) = .ok a v) : a.nativeEdits = prepared.nativeEdits ∧
    ∃ node, GraphMounting.content v container =
      some (node, some { j.order with revision := newRevision }) := by
  simp only [commitKeyed, exchangeKeyed, bind_ok, query_run_ok, pure_ok] at hrun
  obtain ⟨_, _, -, _, g0, -, _, t, ⟨_, _, -, _, _, -, _, t1, -, _, t2, hput, -, rfl⟩, _, g1, hfinish, rfl,
    rfl⟩ := hrun
  obtain ⟨e, -, rfl⟩ := alter_run_ok.mp hput
  refine ⟨rfl, e.node, ?_⟩
  have same := outline_of_withoutInteraction (kept_of_preserves (fun c => preserves_finish _ _ _) hfinish)
  change (outline g1).content container = _
  rw [same]
  exact congrArg (Option.map _) (FiniteMap.get_set_self _ _ _)

end Committed

section Mirroring

variable {K V : Type} [DecidableEq K] {g v : MountedGraph K} {views : ℕ → Option V}
  {o : KeyedViewOrder K V} {l : KeyedList K (ℕ × ℕ)}

def orderOf (g : MountedGraph K) (container : ℕ) : KeyedChildOrder K :=
  ((g.nodes.get container).bind (·.keyedChildren)).getD .empty

/-- The native order has the keys of the container, in its order, with the views of their roots. -/
def Mirrors (views : ℕ → Option V) (g : MountedGraph K) (container : ℕ) (o : KeyedViewOrder K V) :
    Prop :=
  ∃ l shown, KeyedOrderLists.Represents (orderOf g container) l ∧ Represents o shown ∧
    Shown views l shown

/-- The order `materialize` builds for a keyed container. -/
def materializeOrder (views : ℕ → Option V) (entries : List (K × ℕ)) : ViewMethod K V Unit :=
  entries.forM fun (key, root) => do
    let view ← expect indexError (views root)
    insert key none view

theorem place_last {W : Type} {l : KeyedList K W} {k : K} {w : W} (fresh : k ∉ l.keys) :
    (l.place k w none fresh).entries = l.entries ++ [(k, w)] :=
  place_entries fresh (List.append_nil _).symm (by simp) rfl

theorem materialize_from (ys : List (K × ℕ × ℕ)) {l₁ : KeyedList K (ℕ × ℕ)} {shown : KeyedList K V}
    (h : Represents o shown) (s : Shown views l₁ shown) (cut : l.entries = l₁.entries ++ ys)
    (known : ∀ y ∈ ys, (views y.2.1).isSome) :
    ∃ o' shown', (materializeOrder views (ys.map fun y => (y.1, y.2.1))).run o = .ok ⟨⟩ o' ∧
      Represents o' shown' ∧ Shown views l shown' := by
  induction ys generalizing o l₁ shown with
  | nil =>
    obtain rfl : l = l₁ := KeyedList.ext (cut.trans (List.append_nil _))
    exact ⟨o, shown, rfl, h, s⟩
  | cons y ys ih =>
    obtain ⟨k, item⟩ := y
    have fresh : k ∉ l₁.keys := by
      have distinct := l.distinct
      rw [cut, List.map_append, List.map_cons, List.nodup_append] at distinct
      exact fun hk => distinct.2.2 k hk k List.mem_cons_self rfl
    have fresh' : k ∉ shown.keys := by rwa [shown_keys s]
    obtain ⟨view, hview⟩ := Option.isSome_iff_exists.mp (known (k, item) List.mem_cons_self)
    obtain ⟨t, hrun, represents⟩ := insert_run h view fresh'
      (by simp : ∀ a ∈ (none : Option K), a ∈ shown.keys)
    obtain ⟨o', shown', hrest, represents', s'⟩ := ih represents (shown_place s hview fresh fresh')
      (by rw [place_last, cut, List.append_assoc, List.singleton_append])
      fun y hy => known y (List.mem_cons_of_mem _ hy)
    refine ⟨o', shown', forM_cons_ok.mpr ⟨t, ?_, hrest⟩, represents', s'⟩
    dsimp only
    rw [hview]
    exact (run_bind_ok (expect_run _ _ o)).trans hrun

theorem orderOf_represents (h : Shape g) (container : ℕ) :
    ∃ l, KeyedOrderLists.Represents (orderOf g container) l ∧
      ∀ k item, l.get k = some item → (g.node item.1).isSome := by
  have empty : KeyedOrderLists.Represents (.empty : KeyedChildOrder K) .empty :=
    ⟨⟨List.nodup_nil, rfl, rfl, trivial⟩, fun _ => rfl⟩
  cases he : g.nodes.get container with
  | none => exact ⟨.empty, by rwa [orderOf, he], by rintro _ _ ⟨⟩⟩
  | some e =>
    cases ho : e.keyedChildren with
    | none =>
      refine ⟨.empty, ?_, by rintro _ _ ⟨⟩⟩
      rwa [orderOf, he, Option.bind_some, ho]
    | some o =>
      obtain ⟨l, hl⟩ := h.orders he ho
      refine ⟨l, by rwa [orderOf, he, Option.bind_some, ho], fun k item hitem => ?_⟩
      have kids : (item.1, .keyed container k item.2) ∈ (forest g).kids container := by
        rw [kids_eq he]
        simp only [locations, ho]
        exact (mem_keyed hl).mpr ⟨k, item.2, rfl, hitem⟩
      rw [MountedGraph.node, Option.isSome_map]
      exact mounted_iff.mp (h.linked.placed kids).1

theorem materialize_mirrors (h : Shape g) (container : ℕ)
    (known : ∀ x, (g.node x).isSome → (views x).isSome) :
    ∃ l o, KeyedOrderLists.Represents (orderOf g container) l ∧
      (materializeOrder views (l.entries.map fun y => (y.1, y.2.1))).run .empty = .ok ⟨⟩ o ∧
      Mirrors views g container o := by
  obtain ⟨l, represents, mounted⟩ := orderOf_represents h container
  have empty : Represents (.empty : KeyedViewOrder K V) .empty :=
    ⟨⟨List.nodup_nil, rfl, rfl, trivial⟩, fun _ => rfl⟩
  have none_shown : Shown views (.empty : KeyedList K (ℕ × ℕ)) .empty := rfl
  obtain ⟨o, shown, hrun, represents', s⟩ := materialize_from (l := l) l.entries empty none_shown rfl
    fun y hy => known y.2.1 (mounted y.1 y.2 (mem_entries_iff.mp hy))
  exact ⟨l, o, represents, hrun, l, shown, represents, represents', s⟩

theorem mirrors_children (h : Shape g) (m : Mirrors views g container o) {e : MountedNode K}
    (he : g.nodes.get container = some e) (ho : e.keyedChildren.isSome) :
    ∃ children shown, (g.childrenOf container : Reading K (List ℕ)) = .ok children ∧
      shownViews o = .ok shown ∧ children.map views = shown.map some := by
  obtain ⟨l, shown, represents, hrun, s⟩ := m
  obtain ⟨order, horder⟩ := Option.isSome_iff_exists.mp ho
  rw [orderOf, he, Option.bind_some, horder, Option.getD_some] at represents
  refine ⟨_, _, children_of h container, shown_views hrun, ?_⟩
  have kids : (forest g).kids container = l.entries.map (keyedPlace container) := by
    rw [kids_eq he]
    simp only [locations, horder, entries_of represents]
  rw [kids]
  have values := congrArg (fun l => l.entries.map Prod.snd) s
  simpa [mapValues, Function.comp_def, keyedPlace] using values

variable {baseRevision newRevision : ℕ} {operations : List (KeyedGraphOperation K)}
  {hashOrder : Enumeration K (Option (KeyedChild K))} {a : GraphApply K}

theorem edits_reported
    (hrun : (apply hashOrder (.keyed container baseRevision newRevision operations)).run g = .ok a v) :
    ∃ keyed, (applyKeyed hashOrder container baseRevision newRevision operations).run g = .ok keyed v ∧
      a.keyedEdits = keyed.nativeEdits := by
  simp only [apply, bind_ok, get_ok, pure_ok] at hrun
  obtain ⟨keyed, _, hkeyed, _, _, ⟨rfl, rfl⟩, rfl, rfl⟩ := hrun
  exact ⟨keyed, hkeyed, rfl⟩

/-- Replaying the edits of an accepted transaction ends exactly when no operation discards a root that
an earlier one brought, and then the native order is the container's again. -/
theorem replay_follows (h : Reachable (accepting K) g)
    (hrun : (apply hashOrder (.keyed container baseRevision newRevision operations)).run g = .ok a v)
    (known : ∀ x, (views x).isSome ↔ (g.node x).isSome ∨ (v.node x).isSome)
    (mirrors : Mirrors views g container o) :
    ((∃ o', (replay views a.keyedEdits).run o = .ok ⟨⟩ o') ↔
      Lasting (operations.map (orderEdit 0))) ∧
    ∀ o', (replay views a.keyedEdits).run o = .ok ⟨⟩ o' → Mirrors views v container o' ∧
      ∃ children shown, (v.childrenOf container : Reading K (List ℕ)) = .ok children ∧
        shownViews o' = .ok shown ∧ children.map views = shown.map some := by
  have shape := shape_reachable h
  obtain ⟨keyed, hkeyed, hreport⟩ := edits_reported hrun
  obtain ⟨entry, owner, prepared, j, hentry, -, -, hprepare, hcommit⟩ := apply_keyed_ok hkeyed
  obtain ⟨he, l₀, base, -⟩ := keyed_base shape hentry
  obtain ⟨l, represents, emitted⟩ := prepare_emitted base hprepare
  obtain ⟨_, _, -, grafted⟩ := commit_grafted shape hentry hprepare hcommit
  obtain ⟨hedits, node, hv⟩ := commit_order hcommit
  have shape' := grafted.shape shape
  obtain ⟨e, hev, hkeep⟩ := Option.map_eq_some_iff.mp hv
  have holds : e.keyedChildren = some { j.order with revision := newRevision } := (Prod.mk.inj hkeep).2
  have order : orderOf v container = { j.order with revision := newRevision } := by
    rw [orderOf, hev, Option.bind_some, holds, Option.getD_some]
  obtain ⟨l₁, shown, represents₁, shows, s⟩ := mirrors
  rw [orderOf, he, Option.bind_some] at represents₁
  obtain rfl : l₁ = l₀ := KeyedList.ext ((entries_of represents₁).symm.trans (entries_of base))
  -- a new root is mounted exactly when its key still has it
  have found : ∀ item ∈ prepared.nativeEdits.filterMap installs,
      (views item.2).isSome ↔ ∃ i, l.get item.1 = some (item.2, i) := by
    intro item hitem
    have new : ¬(g.nodes.get item.2).isSome := fun hmem =>
      absurd (shape.issued hmem) (emitted.fresh item hitem).not_ge
    rw [known, MountedGraph.node, MountedGraph.node, Option.isSome_map, Option.isSome_map,
      or_iff_right new]
    constructor
    · intro hmounted
      rcases (grafted.mounted shape item.2).mp (mounted_iff.mpr hmounted) with ⟨hold, -⟩ | hstaged
      · exact absurd (mounted_iff.mp hold) new
      · exact emitted.kept item hitem hstaged
    · rintro ⟨i, hi⟩
      have kids : (item.2, .keyed container item.1 i) ∈ (forest v).kids container := by
        rw [kids_eq hev]
        simp only [locations, holds]
        exact (mem_keyed (represents_revision represents newRevision)).mpr ⟨item.1, i, rfl, hi⟩
      exact mounted_iff.mp (shape'.linked.placed kids).1
  have found_all : (∀ edit ∈ prepared.nativeEdits, ∀ item ∈ installs edit, (views item.2).isSome) ↔
      Lasting (operations.map (orderEdit 0)) := by
    rw [← emitted.operations, ← edited_lasting emitted.edited emitted.distinct]
    constructor
    · intro all item hitem
      obtain ⟨edit, hedit, hinstalls⟩ := List.mem_filterMap.mp hitem
      exact (found item hitem).mp (all edit hedit item hinstalls)
    · intro all edit hedit item hinstalls
      have hitem := List.mem_filterMap.mpr ⟨edit, hedit, hinstalls⟩
      exact (found item hitem).mpr (all item hitem)
  rw [hreport, hedits]
  constructor
  · constructor
    · rintro ⟨o', ho'⟩
      exact found_all.mp (replay_known ho')
    · intro lasting
      obtain ⟨o', -, ho', -⟩ := replay_run shows s emitted.edited (found_all.mpr lasting)
      exact ⟨o', ho'⟩
  · intro o' ho'
    obtain ⟨o₁, shown', ho₁, shows', s'⟩ := replay_run shows s emitted.edited (replay_known ho')
    obtain rfl : o' = o₁ := (EStateM.Result.ok.inj (ho'.symm.trans ho₁)).2
    have m : Mirrors views v container o' :=
      ⟨l, shown', order ▸ represents_revision represents newRevision, shows', s'⟩
    exact ⟨m, mirrors_children shape' m hev (holds ▸ rfl)⟩

end Mirroring

section Examples

def columnShown : MountedGraph ℕ := afterPatch .empty (.mount 1
  [⟨1, .keyedColumn "" 0 [7, 8], [2, 4]⟩, ⟨2, .boundary 5, [3]⟩, ⟨3, .text, []⟩,
    ⟨4, .boundary 6, [5]⟩, ⟨5, .text, []⟩])

def columnOperations : List (KeyedGraphOperation ℕ) :=
  [.move 8 (some 7), .insert 9 none 6 [⟨6, .boundary 7, [7]⟩, ⟨7, .text, []⟩],
    .set 7 8 [⟨8, .boundary 5, [9]⟩, ⟨9, .text, []⟩]]

def passingOperations : List (KeyedGraphOperation ℕ) :=
  [.insert 9 none 6 [⟨6, .boundary 7, [7]⟩, ⟨7, .text, []⟩], .remove 9]

/-- Every node of two graphs is its own view. -/
def eitherNode (g v : MountedGraph ℕ) (x : ℕ) : Option ℕ :=
  if (g.node x).isSome ∨ (v.node x).isSome then some x else none

theorem either_known (g v : MountedGraph ℕ) (x : ℕ) :
    (eitherNode g v x).isSome ↔ (g.node x).isSome ∨ (v.node x).isSome := by
  rw [eitherNode]
  split <;> simp_all

/-- Both transactions are accepted, and the second one cannot be replayed. -/
theorem column_replayed :
    ∃ (a b : GraphApply ℕ) (v w : MountedGraph ℕ) (o o' p : KeyedViewOrder ℕ ℕ),
      (apply .sorted (.keyed 1 0 1 columnOperations)).run columnShown = .ok a v ∧
      Mirrors (eitherNode columnShown v) columnShown 1 o ∧
      (replay (eitherNode columnShown v) a.keyedEdits).run o = .ok ⟨⟩ o' ∧
      Mirrors (eitherNode columnShown v) v 1 o' ∧
      (apply .sorted (.keyed 1 0 1 passingOperations)).run columnShown = .ok b w ∧
      Mirrors (eitherNode columnShown w) columnShown 1 p ∧
      ¬∃ q, (replay (eitherNode columnShown w) b.keyedEdits).run p = .ok ⟨⟩ q := by
  have reached : Reachable (accepting ℕ) columnShown :=
    reachable_step (reachable_initial _) (accepted_step _ (by decide +kernel))
  have accepted : (answer ((apply .sorted (.keyed 1 0 1 columnOperations)).run columnShown)).isOk =
      true := by decide +kernel
  have passed : (answer ((apply .sorted (.keyed 1 0 1 passingOperations)).run columnShown)).isOk =
      true := by decide +kernel
  obtain ⟨a, ha⟩ := answer_is_ok accepted
  obtain ⟨b, hb⟩ := answer_is_ok passed
  have built (v : MountedGraph ℕ) := materialize_mirrors (shape_reachable reached) 1
    fun x hx => (either_known columnShown v x).mpr (.inl hx)
  obtain ⟨-, o, -, -, mirrors⟩ := built (afterPatch columnShown (.keyed 1 0 1 columnOperations))
  obtain ⟨-, p, -, -, mirrors'⟩ := built (afterPatch columnShown (.keyed 1 0 1 passingOperations))
  obtain ⟨ends, follows⟩ := replay_follows reached ha (either_known _ _) mirrors
  obtain ⟨o', ho'⟩ := ends.mpr (by decide)
  refine ⟨a, b, _, _, o, o', p, ha, mirrors, ho', (follows o' ho').1, hb, mirrors', ?_⟩
  rw [(replay_follows reached hb (either_known _ _) mirrors').1]
  decide

end Examples

end NativeReplays
