import Mathlib.Algebra.BigOperators.Group.Finset.Basic
import Mathlib.Algebra.Order.BigOperators.Group.Finset
import RocGui.MethodOutcomes
import RocGui.VirtualSpans

/-! The tables of cached rows, and what each operation on them does. -/
namespace VirtualCaches

open FiniteMaps Methods MethodOutcomes KeyedOrder GraphState GraphForests PointerTrees Popovers
open IdentityRuns FocusLandings VirtualRows VirtualSpans

section Tables

/-- The three tables of rows describe the same pairs, and a list's count is the sum of its rows'. -/
structure Tables (c : Cache) : Prop where
  owned : ∀ l r, c.rowOwners.get r = some l ↔ (c.views.get (l, r)).isSome
  listed : ∀ l r, r ∈ rowsOf c l ↔ (c.views.get (l, r)).isSome
  summed : ∀ l s, c.lists.get l = some s → s.entities = ∑ r ∈ s.rows, (c.views.get (l, r)).getD 0

/-- What an operation on the tables leaves alone. -/
structure Beside (c t : Cache) : Prop where
  entities : t.entities = c.entities
  preserved : t.preserved = c.preserved
  shown : t.shown = c.shown
  frames : t.frames = c.frames

variable {c t u : Cache} {l r n : ℕ}

theorem beside_refl (c : Cache) : Beside c c := ⟨rfl, rfl, rfl, rfl⟩

theorem beside_trans (h : Beside c t) (h' : Beside t u) : Beside c u :=
  ⟨h'.entities.trans h.entities, h'.preserved.trans h.preserved, h'.shown.trans h.shown,
    h'.frames.trans h.frames⟩

theorem rows_eq {s : Summary} (hs : c.lists.get l = some s) : rowsOf c l = s.rows := by
  rw [rowsOf, hs]
  rfl

theorem rows_none (hs : c.lists.get l = none) : rowsOf c l = ∅ := by
  rw [rowsOf, hs]
  rfl

theorem tables_empty : Tables .empty := by
  refine ⟨fun l r => ?_, fun l r => ?_, fun l s hs => ?_⟩
  · simp [Cache.empty]
  · simp [Cache.empty, rowsOf]
  · simp [Cache.empty] at hs

theorem tables_congr (tb : Tables c) (views : t.views = c.views) (owners : t.rowOwners = c.rowOwners)
    (lists : t.lists = c.lists) : Tables t := by
  refine ⟨fun l r => ?_, fun l r => ?_, fun l s hs => ?_⟩
  · rw [owners, views]
    exact tb.owned l r
  · rw [rowsOf, lists, views]
    exact tb.listed l r
  · rw [views]
    exact tb.summed l s (lists ▸ hs)

theorem checked_sub {α : Type} {which : Shortfall} {n m : ℕ} {f : ℕ → CacheMethod α} {P : α → Cache → Prop}
    (hle : m ≤ n) (h : Yields (f (n - m)) c P) : Yields (checkedSub which n m >>= f) c P := by
  rw [checkedSub, if_pos hle]
  exact h

theorem row_once (tb : Tables c) {l l' r : ℕ} (h : (c.views.get (l, r)).isSome)
    (h' : (c.views.get (l', r)).isSome) : l = l' :=
  Option.some.inj (((tb.owned l r).mpr h).symm.trans ((tb.owned l' r).mpr h'))

theorem cache_row (tb : Tables c) (l r n : ℕ) : Yields (cacheVirtualRow l r n) c fun _ t =>
    Tables t ∧ Beside c t ∧ t.views = c.views.set (l, r) n := by
  refine yields_get_bind (yields_guard fun hfree => yields_set ⟨?_, ⟨rfl, rfl, rfl, rfl⟩, rfl⟩)
  have hfree : c.rowOwners.get r = none := by simpa using hfree
  have away (l' : ℕ) : c.views.get (l', r) = none := by
    rw [← Option.not_isSome_iff_eq_none, ← tb.owned, hfree]
    exact nofun
  have hrows : ((c.lists.get l).getD ⟨∅, 0⟩).rows = rowsOf c l := by
    cases hs : c.lists.get l with
    | none => rw [rows_none hs]; rfl
    | some s => rw [rows_eq hs]; rfl
  have hsum : ((c.lists.get l).getD ⟨∅, 0⟩).entities =
      ∑ r ∈ rowsOf c l, (c.views.get (l, r)).getD 0 := by
    cases hs : c.lists.get l with
    | none => rw [rows_none hs]; rfl
    | some s => rw [rows_eq hs]; exact tb.summed l s hs
  have hout : r ∉ rowsOf c l := fun hmem => by
    have := (tb.listed l r).mp hmem
    simp [away l] at this
  refine ⟨fun l' r' => ?_, fun l' r' => ?_, fun l' s hs => ?_⟩
  · simp only [FiniteMap.get_set, Prod.mk.injEq]
    by_cases hr : r' = r
    · subst hr
      by_cases hl : l' = l
      · simp [hl]
      · simp [hl, away l', Ne.symm hl]
    · simp [hr, tb.owned]
  · simp only [rowsOf, FiniteMap.get_set, Prod.mk.injEq]
    by_cases hl : l' = l
    · subst hl
      simp only [if_true, Option.map_some, Option.getD_some, Finset.mem_insert, hrows, tb.listed]
      by_cases hr : r' = r <;> simp [hr]
    · simp only [hl, if_false, false_and]
      exact tb.listed l' r'
  · simp only [FiniteMap.get_set] at hs ⊢
    by_cases hl : l' = l
    · subst hl
      rw [if_pos rfl, Option.some.injEq] at hs
      subst hs
      rw [hrows, hsum, Finset.sum_insert hout, if_pos rfl, Option.getD_some, add_comm]
      refine congrArg (n + ·) (Finset.sum_congr rfl fun r' hr' => ?_)
      rw [if_neg]
      rintro ⟨⟩
      exact hout hr'
    · rw [if_neg hl] at hs
      rw [tb.summed l' s hs]
      refine Finset.sum_congr rfl fun r' _ => ?_
      rw [if_neg]
      rintro ⟨⟩
      exact hl rfl

theorem remove_absent {m : FiniteMap (ℕ × ℕ) ℕ} {k : ℕ × ℕ} (h : m.get k = none) : m.remove k = m := by
  ext x
  rw [FiniteMap.get_remove]
  split
  · rename_i heq
    rw [heq, h]
  · rfl

theorem shrunk_rows (lists : FiniteMap ℕ Summary) (rows : Finset ℕ) (l' : ℕ) :
    (((if rows = ∅ then lists.remove l else lists.set l ⟨rows, n⟩).get l').map (·.rows)).getD ∅ =
      if l' = l then rows else ((lists.get l').map (·.rows)).getD ∅ := by
  by_cases hl : l' = l
  · subst hl
    by_cases hempty : rows = ∅ <;> simp [hempty]
  · by_cases hempty : rows = ∅
    · simp [hempty, FiniteMap.get_remove_ne _ hl, hl]
    · simp [hempty, FiniteMap.get_set_ne _ _ hl, hl]

theorem shrunk_get {lists : FiniteMap ℕ Summary} {rows : Finset ℕ} {l' : ℕ} {s : Summary}
    (h : (if rows = ∅ then lists.remove l else lists.set l ⟨rows, n⟩).get l' = some s) :
    l' = l ∧ s = ⟨rows, n⟩ ∨ l' ≠ l ∧ lists.get l' = some s := by
  by_cases hl : l' = l
  · subst hl
    split at h
    · rw [FiniteMap.get_remove_self] at h
      cases h
    · rw [FiniteMap.get_set_self] at h
      exact .inl ⟨rfl, (Option.some.inj h).symm⟩
  · refine .inr ⟨hl, ?_⟩
    split at h
    · rwa [FiniteMap.get_remove_ne _ hl] at h
    · rwa [FiniteMap.get_set_ne _ _ hl] at h

theorem uncache_row (tb : Tables c) (l r : ℕ) : Yields (uncacheVirtualRow l r) c fun a t =>
    a = c.views.get (l, r) ∧ Tables t ∧ Beside c t ∧ t.views = c.views.remove (l, r) := by
  unfold uncacheVirtualRow
  refine yields_get_bind ?_
  cases hv : c.views.get (l, r) with
  | none => exact yields_pure ⟨rfl, tb, beside_refl c, (remove_absent hv).symm⟩
  | some n =>
    refine yields_expect_bind fun s hs => ?_
    have hmem : r ∈ s.rows := by
      rw [← rows_eq hs, tb.listed, hv]
      rfl
    have hsum : n + ∑ r' ∈ s.rows.erase r, (c.views.get (l, r')).getD 0 = s.entities := by
      rw [tb.summed l s hs, ← Finset.add_sum_erase _ _ hmem, hv]
      rfl
    have hle : n ≤ s.entities := by omega
    refine checked_sub (by omega) (yields_set_bind (yields_pure ⟨rfl, ?_, ⟨rfl, rfl, rfl, rfl⟩, rfl⟩))
    refine ⟨fun l' r' => ?_, fun l' r' => ?_, fun l' s' hs' => ?_⟩
    · simp only [FiniteMap.get_remove, Prod.mk.injEq]
      by_cases hr : r' = r
      · subst hr
        by_cases hl : l' = l
        · simp [hl]
        · simp only [hl, false_and, if_false, if_true, reduceCtorEq, false_iff]
          intro hl'
          exact hl (row_once tb hl' (by rw [hv]; rfl))
      · simp [hr, tb.owned]
    · simp only [FiniteMap.get_remove, Prod.mk.injEq]
      rw [rowsOf, shrunk_rows]
      by_cases hl : l' = l
      · subst hl
        rw [if_pos rfl, ← rows_eq hs, Finset.mem_erase, tb.listed]
        by_cases hr : r' = r <;> simp [hr]
      · rw [if_neg hl, if_neg (fun heq => hl heq.1)]
        exact tb.listed l' r'
    · rcases shrunk_get hs' with ⟨rfl, rfl⟩ | ⟨hl, hold⟩
      · have heq : s.entities - n = ∑ r' ∈ s.rows.erase r, (c.views.get (l', r')).getD 0 := by omega
        refine heq.trans (Finset.sum_congr rfl fun r' hr' => ?_)
        rw [FiniteMap.get_remove_ne]
        rintro ⟨⟩
        exact Finset.notMem_erase r _ hr'
      · rw [tb.summed l' s' hold]
        refine Finset.sum_congr rfl fun r' _ => ?_
        rw [FiniteMap.get_remove_ne]
        rintro ⟨⟩
        exact hl rfl

theorem uncache_rows {is : List ℕ} (tb : Tables c) (nodup : is.Nodup)
    (cached : ∀ r ∈ is, (c.views.get (l, r)).isSome) : Yields (uncacheRows l is) c fun a t =>
      a = is ∧ Tables t ∧ Beside c t ∧
        ∀ l' r, t.views.get (l', r) = if l' = l ∧ r ∈ is then none else c.views.get (l', r) := by
  induction is generalizing c with
  | nil => exact yields_pure ⟨rfl, tb, beside_refl c, by simp⟩
  | cons i is ih =>
    rw [List.nodup_cons] at nodup
    refine yields_bind (uncache_row tb l i) ?_
    rintro a t ⟨rfl, tb', beside, views⟩
    have hi := cached i List.mem_cons_self
    refine yields_bind (ih tb' nodup.2 fun r hr => ?_) ?_
    · rw [views, FiniteMap.get_remove_ne _ (by rintro ⟨⟩; exact nodup.1 hr)]
      exact cached r (List.mem_cons_of_mem i hr)
    · rintro others u ⟨rfl, tb'', beside', views'⟩
      rw [if_pos hi]
      refine yields_pure ⟨rfl, tb'', beside_trans beside beside', fun l' r => ?_⟩
      rw [views', views, FiniteMap.get_remove]
      by_cases hl : l' = l <;> by_cases hr : r = i <;> by_cases hmem : r ∈ others <;> simp [hl, hr, hmem]

theorem uncache_all (tb : Tables c) (l : ℕ) : Yields (uncacheRows l (ascending (rowsOf c l))) c
    fun a t => a = ascending (rowsOf c l) ∧ Tables t ∧ Beside c t ∧
      ∀ l' r, t.views.get (l', r) = if l' = l then none else c.views.get (l', r) := by
  refine yields_mono (uncache_rows tb (ascending_nodup _) fun r hr =>
    (tb.listed l r).mp (mem_ascending.mp hr)) ?_
  rintro a t ⟨ha, tb', beside, views⟩
  refine ⟨ha, tb', beside, fun l' r => ?_⟩
  rw [views]
  simp only [mem_ascending, tb.listed]
  by_cases hl : l' = l
  · subst hl
    cases hv : c.views.get (l', r) <;> simp
  · simp [hl]

theorem resize_row (tb : Tables c) {old new : ℕ} {r : ℕ}
    (enough : ∀ l n, c.views.get (l, r) = some n → old ≤ n) : Yields (resizeRow old new r) c fun _ t =>
      Tables t ∧ Beside c t ∧ ∀ l' r', t.views.get (l', r') =
        if r' = r then (c.views.get (l', r')).map (fun n => n - old + new) else c.views.get (l', r') := by
  unfold resizeRow
  refine yields_get_bind ?_
  cases ho : c.rowOwners.get r with
  | none =>
    refine yields_pure ⟨tb, beside_refl c, fun l' r' => ?_⟩
    split
    · rename_i heq
      have hnone : c.views.get (l', r') = none := by
        rw [← Option.not_isSome_iff_eq_none, ← tb.owned, heq, ho]
        exact nofun
      rw [hnone, Option.map_none]
    · rfl
  | some l =>
    refine yields_expect_bind fun n hn => ?_
    have hle := enough l n hn
    refine checked_sub hle (yields_expect_bind fun s hs => ?_)
    have hmem : r ∈ s.rows := by
      rw [← rows_eq hs, tb.listed, hn]
      rfl
    have hsum : n + ∑ r' ∈ s.rows.erase r, (c.views.get (l, r')).getD 0 = s.entities := by
      rw [tb.summed l s hs, ← Finset.add_sum_erase _ _ hmem, hn]
      rfl
    refine checked_sub (by omega) (yields_modify ⟨⟨fun l' r' => ?_, fun l' r' => ?_, fun l' s' hs' => ?_⟩,
      ⟨rfl, rfl, rfl, rfl⟩, fun l' r' => ?_⟩)
    · rw [FiniteMap.get_set]
      split
      · rename_i heq
        obtain ⟨rfl, rfl⟩ := Prod.mk.inj heq
        simp [ho]
      · exact tb.owned l' r'
    · have hrows : rowsOf { c with
          views := c.views.set (l, r) (n - old + new)
          lists := c.lists.set l { s with entities := s.entities - old + new } } l' = rowsOf c l' := by
        rw [rowsOf, FiniteMap.get_set]
        split
        · rename_i heq
          rw [heq, rows_eq hs]
          rfl
        · rfl
      rw [hrows, FiniteMap.get_set, tb.listed]
      split
      · rename_i heq
        obtain ⟨rfl, rfl⟩ := Prod.mk.inj heq
        simp [hn]
      · rfl
    · rw [FiniteMap.get_set] at hs'
      split at hs'
      · rename_i heq
        subst heq
        obtain rfl := Option.some.inj hs'
        have hrest : ∑ r' ∈ s.rows.erase r, ((c.views.set (l', r) (n - old + new)).get (l', r')).getD 0 =
            ∑ r' ∈ s.rows.erase r, (c.views.get (l', r')).getD 0 := by
          refine Finset.sum_congr rfl fun r' hr' => ?_
          rw [FiniteMap.get_set_ne]
          rintro ⟨⟩
          exact Finset.notMem_erase r _ hr'
        rw [← Finset.add_sum_erase _ _ hmem, hrest, FiniteMap.get_set_self, Option.getD_some]
        dsimp only
        omega
      · rename_i hl
        rw [tb.summed l' s' hs']
        refine Finset.sum_congr rfl fun r' _ => ?_
        rw [FiniteMap.get_set_ne]
        rintro ⟨⟩
        exact hl rfl
    · rw [FiniteMap.get_set]
      by_cases hr : r' = r
      · subst hr
        by_cases hl : l' = l
        · simp [hl, hn]
        · have hnone : c.views.get (l', r') = none := by
            rw [← Option.not_isSome_iff_eq_none]
            intro hsome
            exact hl (row_once tb hsome (by rw [hn]; rfl))
          simp [hl, hnone]
      · simp [hr]

end Tables

section Builds

variable {K : Type} [DecidableEq K] {g : MountedGraph K} {X : Set ℕ} {c t u : Cache} {id x : ℕ}
  {ids more : List ℕ}

/-- The view of a node shows its children, and its count is right. -/
def Whole (g : MountedGraph K) (c : Cache) (x : ℕ) : Prop := ∀ n, c.entities.get x = some n →
  n = span g x ∧ c.shown.get x = some (cutKids g x) ∧
    ∀ k ∈ cutKids g x, (c.entities.get k).isSome ∧ k ∉ c.preserved

/-- What building the views of `ids` does. The views in `X` may be out of date. -/
structure Built (g : MountedGraph K) (X : Set ℕ) (ids : List ℕ) (c t : Cache) : Prop where
  views : t.views = c.views
  owners : t.rowOwners = c.rowOwners
  lists : t.lists = c.lists
  frames : t.frames = c.frames
  grows : ∀ x, (c.entities.get x).isSome → (t.entities.get x).isSome
  shrinks : t.preserved ⊆ c.preserved
  away : ∀ x, (∀ id ∈ ids, ¬Spans g id x) →
    t.entities.get x = c.entities.get x ∧ t.shown.get x = c.shown.get x
  whole : ∀ x, x ∉ X → Whole g t x
  tops : ∀ x, (t.entities.get x).isSome →
    (c.entities.get x).isSome ∧ (x ∈ t.preserved ∨ x ∉ c.preserved) ∨ x ∈ ids ∨
      ∃ q, Cut g q x ∧ (t.entities.get q).isSome
  built : ∀ id ∈ ids, (t.entities.get id).isSome ∧ id ∉ t.preserved
  mounted : ∀ x, (t.entities.get x).isSome → (c.entities.get x).isSome ∨ (forest g).Mounted x

theorem built_nothing (whole : ∀ x, x ∉ X → Whole g c x) : Built g X [] c c :=
  ⟨rfl, rfl, rfl, rfl, fun _ hx => hx, Finset.Subset.refl _, fun _ _ => ⟨rfl, rfl⟩, whole,
    fun _ hx => .inl ⟨hx, em _⟩, by simp, fun _ hx => .inl hx⟩

theorem built_append (b : Built g X ids c t) (b' : Built g X more t u) : Built g X (ids ++ more) c u where
  views := b'.views.trans b.views
  owners := b'.owners.trans b.owners
  lists := b'.lists.trans b.lists
  frames := b'.frames.trans b.frames
  grows x hx := b'.grows x (b.grows x hx)
  shrinks := b'.shrinks.trans b.shrinks
  away x hx := by
    obtain ⟨he, hs⟩ := b.away x fun id hid => hx id (List.mem_append_left _ hid)
    obtain ⟨he', hs'⟩ := b'.away x fun id hid => hx id (List.mem_append_right _ hid)
    exact ⟨he'.trans he, hs'.trans hs⟩
  whole := b'.whole
  tops x hx := by
    rcases b'.tops x hx with ⟨hold, hkept⟩ | hmore | hq
    · rcases b.tops x hold with ⟨hold, hkept'⟩ | hids | ⟨q, hcut, hq⟩
      · refine .inl ⟨hold, ?_⟩
        rcases hkept with hkept | hout
        · exact .inl hkept
        · exact .inr (hkept'.resolve_left hout)
      · exact .inr (.inl (List.mem_append_left _ hids))
      · exact .inr (.inr ⟨q, hcut, b'.grows q hq⟩)
    · exact .inr (.inl (List.mem_append_right _ hmore))
    · exact .inr (.inr hq)
  built id hid := by
    rcases List.mem_append.mp hid with hid | hid
    · exact ⟨b'.grows id (b.built id hid).1, fun hp => (b.built id hid).2 (b'.shrinks hp)⟩
    · exact b'.built id hid
  mounted x hx := (b'.mounted x hx).elim (b.mounted x) .inr

theorem built_each {build : ℕ → CacheMethod PUnit} {is : List ℕ}
    (each : ∀ i ∈ is, ∀ c, (∀ x, x ∉ X → Whole g c x) → Yields (build i) c fun _ t => Built g X [i] c t)
    (whole : ∀ x, x ∉ X → Whole g c x) : Yields (is.forM build) c fun _ t => Built g X is c t := by
  induction is generalizing c with
  | nil => exact yields_pure (built_nothing whole)
  | cons i is ih =>
    rw [List.forM]
    refine yields_bind (each i List.mem_cons_self c whole) fun _ t ht => ?_
    exact yields_mono (ih (fun j hj => each j (List.mem_cons_of_mem i hj)) ht.whole) fun _ u hu =>
      built_append ht hu

theorem built_children (h : Shape g) {P : List ℕ → Cache → Prop} (hp : P (cutKids g id) c) :
    Yields (builtChildren g id) c P := by
  unfold builtChildren cutKids at *
  split
  · rename_i hlist
    rw [if_pos hlist] at hp
    exact yields_pure hp
  · rename_i hlist
    rw [if_neg hlist] at hp
    exact yields_ofExcept (children_of h id) hp

theorem counts_read {ks : List ℕ} (count : ∀ k ∈ ks, ∀ n, c.entities.get k = some n → n = span g k) :
    Yields (ks.mapM countOf) c fun a t => t = c ∧ a = ks.map (span g) := by
  induction ks with
  | nil => exact yields_pure ⟨rfl, rfl⟩
  | cons k ks ih =>
    rw [List.mapM_cons]
    refine yields_bind (Q := fun a t => t = c ∧ a = span g k) ?_ ?_
    · exact yields_get_bind (yields_expect fun n hn => ⟨rfl, count k List.mem_cons_self n hn⟩)
    · rintro _ _ ⟨rfl, rfl⟩
      refine yields_bind (ih fun k hk => count k (List.mem_cons_of_mem _ hk)) ?_
      rintro _ _ ⟨rfl, rfl⟩
      exact yields_pure ⟨rfl, rfl⟩

theorem finish_built (h : Shape g) (out : ∀ y, Spans g id y → y ∉ X) (whole : ∀ x, x ∉ X → Whole g c x)
    (free : id ∉ c.preserved)
    (children : ∀ k ∈ cutKids g id, (c.entities.get k).isSome ∧ k ∉ c.preserved) :
    Yields (finishNode g id) c fun _ t => Built g X [id] c t := by
  refine yields_expect_bind fun n hn => yields_bind (built_children h (P := fun a t =>
    t = c ∧ a = cutKids g id) ⟨rfl, rfl⟩) ?_
  rintro _ _ ⟨rfl, rfl⟩
  refine yields_bind (counts_read (g := g) fun k hk n hn => ?_) ?_
  · exact (whole k (out k (.single hk)) n hn).1
  rintro _ _ ⟨rfl, rfl⟩
  have grown (t : Cache) (x : ℕ) (hx : (t.entities.get x).isSome) (n : ℕ) :
      ((t.entities.set id n).get x).isSome := by
    rw [FiniteMap.get_set]
    split
    · rfl
    · exact hx
  refine yields_modify ⟨rfl, rfl, rfl, rfl, fun x hx => grown _ x hx _, Finset.Subset.refl _,
    fun x hx => ?_, fun x hx => ?_, fun x hx => ?_, fun i hi => ?_, fun x hx => ?_⟩
  · have hne : x ≠ id := fun heq => hx id (by simp) (heq ▸ .refl)
    exact ⟨FiniteMap.get_set_ne _ _ hne, FiniteMap.get_set_ne _ _ hne⟩
  · intro n' hn'
    dsimp only at hn'
    by_cases heq : x = id
    · subst heq
      rw [FiniteMap.get_set_self, Option.some.injEq] at hn'
      refine ⟨by rw [← hn', span_unfold h], FiniteMap.get_set_self .., fun k hk => ?_⟩
      exact ⟨grown _ k (children k hk).1 _, (children k hk).2⟩
    · rw [FiniteMap.get_set_ne _ _ heq] at hn'
      obtain ⟨hcount, hshown, hkids⟩ := whole x hx n' hn'
      refine ⟨hcount, (FiniteMap.get_set_ne _ _ heq).trans hshown, fun k hk => ?_⟩
      exact ⟨grown _ k (hkids k hk).1 _, (hkids k hk).2⟩
  · dsimp only at hx
    by_cases heq : x = id
    · exact .inr (.inl (by simp [heq]))
    · rw [FiniteMap.get_set_ne _ _ heq] at hx
      exact .inl ⟨hx, em _⟩
  · obtain rfl := List.mem_singleton.mp hi
    exact ⟨by simp, free⟩
  · dsimp only at hx
    by_cases heq : x = id
    · exact .inr (heq ▸ mounted_node hn)
    · rw [FiniteMap.get_set_ne _ _ heq] at hx
      exact .inl hx

theorem build_node (h : Shape g) {fuel : ℕ} (enough : (forest g).weight id < fuel)
    (out : ∀ y, Spans g id y → y ∉ X) (whole : ∀ x, x ∉ X → Whole g c x) :
    Yields (buildNode g fuel id) c fun _ t => Built g X [id] c t := by
  induction fuel generalizing id c with
  | zero => omega
  | succ fuel ih =>
    rw [buildNode]
    refine yields_get_bind (yields_modify_bind ?_)
    have start : ∀ x, x ∉ X → Whole g { c with preserved := c.preserved.erase id } x := by
      intro x hx n hn
      obtain ⟨hcount, hshown, hkids⟩ := whole x hx n hn
      exact ⟨hcount, hshown, fun k hk => ⟨(hkids k hk).1, fun hp =>
        (hkids k hk).2 (Finset.mem_of_mem_erase hp)⟩⟩
    split
    · rename_i hkept
      refine yields_pure ⟨rfl, rfl, rfl, rfl, fun _ hx => hx, Finset.erase_subset _ _,
        fun _ _ => ⟨rfl, rfl⟩, start, fun x hx => ?_, fun i hi => ?_, fun _ hx => .inl hx⟩
      · by_cases heq : x = id
        · exact .inr (.inl (by simp [heq]))
        · refine .inl ⟨hx, ?_⟩
          simp [heq, em]
      · obtain rfl := List.mem_singleton.mp hi
        exact ⟨hkept.2, Finset.notMem_erase _ _⟩
    · refine yields_expect_bind fun n hn => yields_bind (built_children h (P := fun a t =>
        t = { c with preserved := c.preserved.erase id } ∧ a = cutKids g id) ⟨rfl, rfl⟩) ?_
      rintro _ _ ⟨rfl, rfl⟩
      refine yields_bind (built_each (fun k hk t ht => ih ?_ (fun y hy => ?_) ht) start) fun _ t ht => ?_
      · have := weight_child h.weighed (cut_child hk)
        omega
      · exact out y (.head hk hy)
      · refine yields_mono (finish_built h out ht.whole (fun hp => ?_) ht.built) fun _ u hu => ?_
        · exact Finset.notMem_erase id c.preserved (ht.shrinks hp)
        · have hall := built_append ht hu
          refine ⟨hall.views, hall.owners, hall.lists, hall.frames, hall.grows,
            hall.shrinks.trans (Finset.erase_subset _ _), fun x hx => ?_, hall.whole, fun x hx => ?_,
            fun i hi => hall.built i (List.mem_append_right _ hi), hall.mounted⟩
          · refine hall.away x fun i hi hspans => ?_
            rcases List.mem_append.mp hi with hi | hi
            · exact hx id (by simp) (.head hi hspans)
            · exact hx i hi hspans
          · rcases hall.tops x hx with ⟨hold, hkept⟩ | hids | hq
            · by_cases heq : x = id
              · exact .inr (.inl (by simp [heq]))
              · refine .inl ⟨hold, hkept.imp_right fun hout hp => hout ?_⟩
                exact Finset.mem_erase.mpr ⟨heq, hp⟩
            · rcases List.mem_append.mp hids with hk | hid
              · exact .inr (.inr ⟨id, hk, (hu.built id (by simp)).1⟩)
              · exact .inr (.inl hid)
            · exact .inr (.inr hq)

theorem build_virtual (h : Shape g) (hm : (forest g).Mounted id) (out : ∀ y, Spans g id y → y ∉ X)
    (whole : ∀ x, x ∉ X → Whole g c x) : Yields (buildVirtualNode g id) c fun n t =>
      n = span g id ∧ Built g X [id] c t := by
  have enough : (forest g).weight id < g.climb := Nat.lt_succ_of_le (weight_le_size h hm)
  refine yields_bind (build_node h enough out whole) fun _ t ht => yields_get_bind ?_
  exact yields_expect fun n hn => ⟨(ht.whole id (out id .refl) n hn).1, ht⟩

end Builds

end VirtualCaches
