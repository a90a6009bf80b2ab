import RocGui.VirtualCaches

/-! The walks over the views: down a subtree that is forgotten, up from one that was rebuilt, and
up from one that was preserved. -/
namespace VirtualWalks

open FiniteMaps Methods MethodOutcomes KeyedOrder GraphState GraphForests PointerTrees Popovers
open IdentityRuns FocusLandings VirtualRows VirtualSpans VirtualCaches

variable {K : Type} [DecidableEq K] {g : MountedGraph K} {c t u : Cache}

section Down

variable {id x : ℕ} {pending popped : List ℕ}

theorem load_le {rows ks : List ℕ} (nodup : rows.Nodup) (subset : ∀ r ∈ rows, r ∈ ks) :
    load g rows ≤ load g ks := by
  obtain ⟨l, perm, sub⟩ := nodup.subperm subset
  have hperm : load g l = load g rows := (perm.map _).sum_eq
  rw [← hperm]
  exact (sub.map _).sum_le_sum fun _ _ => Nat.zero_le _

/-- What forgetting the subtrees of `pending` does: all that is `popped` is gone. -/
structure Forgotten (g : MountedGraph K) (pending popped : List ℕ) (c t : Cache) : Prop where
  tables : Tables t
  shown : t.shown = c.shown
  frames : t.frames = c.frames
  entities : ∀ x, t.entities.get x = if x ∈ popped then none else c.entities.get x
  preserved : ∀ x, x ∈ t.preserved ↔ x ∈ c.preserved ∧ x ∉ popped
  views : ∀ l r, t.views.get (l, r) = if l ∈ popped then none else c.views.get (l, r)
  starts : ∀ x ∈ pending, x ∈ popped
  kids : ∀ x ∈ popped, ∀ k ∈ cutKids g x, k ∈ popped
  rows : ∀ x ∈ popped, ∀ r, (c.views.get (x, r)).isSome → r ∈ popped
  origin : ∀ x ∈ popped, x ∈ pending ∨ ∃ z ∈ popped, Cut g z x ∨ (c.views.get (z, x)).isSome

theorem forgotten_nothing (tb : Tables c) : Forgotten g [] [] c c := by
  refine ⟨tb, rfl, rfl, ?_, ?_, ?_, ?_, ?_, ?_, ?_⟩ <;> simp

theorem forgotten_cons {rows children : List ℕ} {c' : Cache}
    (f : Forgotten g (rows.reverse ++ children.reverse ++ pending) popped c' t)
    (hrows : ∀ r, r ∈ rows ↔ (c.views.get (id, r)).isSome) (hchildren : children = cutKids g id)
    (shown : c'.shown = c.shown) (frames : c'.frames = c.frames)
    (entities : c'.entities = c.entities.remove id) (preserved : c'.preserved = c.preserved.erase id)
    (views : ∀ l r, c'.views.get (l, r) = if l = id then none else c.views.get (l, r)) :
    Forgotten g (id :: pending) (id :: popped) c t where
  tables := f.tables
  shown := f.shown.trans shown
  frames := f.frames.trans frames
  entities x := by
    rw [f.entities, entities, FiniteMap.get_remove]
    by_cases hx : x = id <;> by_cases hp : x ∈ popped <;> simp [hx, hp]
  preserved x := by
    rw [f.preserved, preserved, Finset.mem_erase, List.mem_cons, not_or]
    tauto
  views l r := by
    rw [f.views, views]
    by_cases hl : l = id <;> by_cases hp : l ∈ popped <;> simp [hl, hp]
  starts x hx := by
    rcases List.mem_cons.mp hx with rfl | hx
    · exact List.mem_cons_self
    · exact List.mem_cons_of_mem _ (f.starts x (by simp [hx]))
  kids x hx k hk := by
    refine List.mem_cons_of_mem _ ?_
    rcases List.mem_cons.mp hx with rfl | hx
    · exact f.starts k (by simp [hchildren, hk])
    · exact f.kids x hx k hk
  rows x hx r hr := by
    refine List.mem_cons_of_mem _ ?_
    by_cases heq : x = id
    · subst heq
      exact f.starts r (by simp [hrows, hr])
    · refine f.rows x ((List.mem_cons.mp hx).resolve_left heq) r ?_
      rwa [views, if_neg heq]
  origin x hx := by
    rcases List.mem_cons.mp hx with rfl | hx
    · exact .inl List.mem_cons_self
    rcases f.origin x hx with hx | ⟨z, hz, hzx⟩
    · simp only [List.mem_append, List.mem_reverse, hrows, hchildren] at hx
      rcases hx with (hr | hk) | hx
      · exact .inr ⟨id, List.mem_cons_self, .inr hr⟩
      · exact .inr ⟨id, List.mem_cons_self, .inl hk⟩
      · exact .inl (List.mem_cons_of_mem _ hx)
    · refine .inr ⟨z, List.mem_cons_of_mem _ hz, hzx.imp_right fun hr => ?_⟩
      rw [views] at hr
      split at hr
      · cases hr
      · exact hr

theorem forget_from (h : Shape g) {G : ℕ → Prop} {fuel : ℕ} (known : ∀ x, G x →
      (forest g).Mounted x ∧ c.shown.get x = some (cutKids g x) ∧ ∀ k ∈ cutKids g x, G k)
    (rows : ∀ l r, (c.views.get (l, r)).isSome → isList g l = true ∧ (forest g).Child l r ∧ G r)
    (tb : Tables c) (all : ∀ x ∈ pending, G x) (enough : load g pending ≤ fuel) :
    Yields (forgetFrom fuel pending) c fun _ t => ∃ popped, Forgotten g pending popped c t := by
  induction fuel generalizing pending c with
  | zero =>
    cases pending with
    | nil => exact yields_pure ⟨[], forgotten_nothing tb⟩
    | cons id pending =>
      rw [load_cons h (known id (all id List.mem_cons_self)).1] at enough
      omega
  | succ fuel ih =>
    cases pending with
    | nil => exact yields_pure ⟨[], forgotten_nothing tb⟩
    | cons id pending =>
      obtain ⟨hm, hshown, hkids⟩ := known id (all id List.mem_cons_self)
      rw [forgetFrom]
      refine yields_get_bind (yields_bind (uncache_all tb id) ?_)
      rintro _ u ⟨rfl, tb', beside, views⟩
      refine yields_modify_bind ?_
      rw [hshown, Option.getD_some]
      have listed (r : ℕ) : r ∈ ascending (rowsOf c id) ↔ (c.views.get (id, r)).isSome := by
        rw [mem_ascending, tb.listed]
      -- a list has rows but no children that are built with it
      have hload : load g (ascending (rowsOf c id)) + load g (cutKids g id) ≤
          (forest g).total ((forest g).kids id) := by
        rw [← load_kids]
        by_cases hlist : isList g id = true
        · rw [cutKids, if_pos hlist]
          refine load_le (ascending_nodup _) fun r hr => ?_
          obtain ⟨l, hl⟩ := (rows id r ((listed r).mp hr)).2.1
          exact List.mem_map.mpr ⟨(r, l), hl, rfl⟩
        · have hnone : ascending (rowsOf c id) = [] :=
            List.eq_nil_iff_forall_not_mem.mpr fun r hr => hlist (rows id r ((listed r).mp hr)).1
          rw [hnone, cutKids, if_neg hlist]
          exact (Nat.zero_add _).le
      have reversed (xs : List ℕ) : load g xs.reverse = load g xs :=
        ((List.reverse_perm xs).map _).sum_eq
      rw [load_cons h hm] at enough
      refine yields_mono (@ih { u with entities := u.entities.remove id, preserved := u.preserved.erase id } _
        (fun x hx => ?_) (fun l r hr => ?_) ?_ (fun x hx => ?_) ?_) ?_
      · obtain ⟨hx, hshown, hkids⟩ := known x hx
        exact ⟨hx, by rw [← hshown, ← beside.shown], hkids⟩
      · refine rows l r ?_
        change (u.views.get (l, r)).isSome = true at hr
        rw [views] at hr
        split at hr
        · cases hr
        · exact hr
      · exact tables_congr tb' rfl rfl rfl
      · simp only [List.mem_append, List.mem_reverse, listed] at hx
        rcases hx with (hr | hk) | hx
        · exact (rows id x hr).2.2
        · exact hkids x hk
        · exact all x (List.mem_cons_of_mem _ hx)
      · rw [load_append, load_append, reversed, reversed]
        omega
      · rintro _ t ⟨popped, f⟩
        refine ⟨id :: popped, forgotten_cons f listed rfl beside.shown beside.frames ?_ ?_ views⟩
        · rw [← beside.entities]
        · rw [← beside.preserved]

end Down

section Up

variable {old new fuel b b' x : ℕ}

/-- What the walk up from `b` does: the counts of the nodes `met` are brought up to date. -/
structure Resized (g : MountedGraph K) (old new b : ℕ) (met : Finset ℕ) (c t : Cache) : Prop where
  tables : Tables t
  preserved : t.preserved = c.preserved
  shown : t.shown = c.shown
  frames : t.frames = c.frames
  entities : ∀ x, t.entities.get x =
    if x ∈ met then (c.entities.get x).map (fun n => n - old + new) else c.entities.get x
  views : ∀ l r, t.views.get (l, r) =
    if r ∈ met then (c.views.get (l, r)).map (fun n => n - old + new) else c.views.get (l, r)
  way : ∀ x ∈ met, isList g b = false ∧ Spans g x b
  complete : ∀ x, isList g b = false → Spans g x b →
    (∀ y, Spans g x y → x ≠ y → Spans g y b → (parentOf g y).isSome) → x ∈ met

theorem parent_child (h : Shape g) {i : ℕ} (hp : parentOf g b = some (b', i)) : (forest g).Child b' b := by
  unfold parentOf at hp
  split at hp
  · rename_i parent index hl
    obtain ⟨rfl, -⟩ := Prod.mk.inj (Option.some.inj hp)
    exact ⟨_, h.linked.listed (mounted_iff.mpr (mounted_of_parent hl)) hl⟩
  · cases hp

theorem resize_node (enough : ∀ n, c.entities.get b = some n → old ≤ n) :
    Yields (resizeNode old new b) c fun _ t => t.views = c.views ∧ t.rowOwners = c.rowOwners ∧
      t.lists = c.lists ∧ t.preserved = c.preserved ∧ t.shown = c.shown ∧ t.frames = c.frames ∧
      ∀ x, t.entities.get x =
        if x = b then (c.entities.get x).map (fun n => n - old + new) else c.entities.get x := by
  unfold resizeNode
  refine yields_get_bind ?_
  cases hn : c.entities.get b with
  | none =>
    refine yields_pure ⟨rfl, rfl, rfl, rfl, rfl, rfl, fun x => ?_⟩
    split
    · rename_i heq
      rw [heq, hn, Option.map_none]
    · rfl
  | some n =>
    refine checked_sub (enough n hn) (yields_modify ⟨rfl, rfl, rfl, rfl, rfl, rfl, fun x => ?_⟩)
    rw [FiniteMap.get_set]
    split
    · rename_i heq
      rw [heq, hn, Option.map_some]
    · rfl

theorem resize_ancestors (h : Shape g) (tb : Tables c) (hm : (forest g).Mounted b)
    (fueled : g.nodes.size < fuel + (forest g).weight b)
    (nodes : ∀ x n, isList g b = false → Spans g x b → c.entities.get x = some n → old ≤ n)
    (rows : ∀ l x n, isList g b = false → Spans g x b → c.views.get (l, x) = some n → old ≤ n) :
    Yields (resizeAncestors g old new fuel (some b)) c fun _ t => ∃ met, Resized g old new b met c t := by
  induction fuel generalizing b c with
  | zero =>
    have := weight_le_size h hm
    omega
  | succ fuel ih =>
    rw [resizeAncestors]
    split
    · rename_i hlist
      refine yields_pure ⟨∅, tb, rfl, rfl, rfl, by simp, by simp, by simp, fun x hplain => ?_⟩
      rw [hlist] at hplain
      cases hplain
    rename_i hplain
    have hplain : isList g b = false := by simpa using hplain
    refine yields_bind (resize_node fun n hn => nodes b n hplain .refl hn) ?_
    rintro _ t ⟨hviews, howners, hlists, hpreserved, hshown, hframes, hentities⟩
    refine yields_bind (resize_row (tables_congr tb hviews howners hlists) fun l n hn => ?_) ?_
    · exact rows l b n hplain .refl (hviews ▸ hn)
    rintro _ u ⟨tb', beside, views⟩
    have hentities (x : ℕ) : u.entities.get x =
        if x = b then (c.entities.get x).map (fun n => n - old + new) else c.entities.get x := by
      rw [beside.entities, hentities]
    have views (l r : ℕ) : u.views.get (l, r) =
        if r = b then (c.views.get (l, r)).map (fun n => n - old + new) else c.views.get (l, r) := by
      rw [views, hviews]
    cases hp : parentOf g b with
    | none =>
      cases fuel <;>
      · refine yields_pure ⟨{b}, tb', beside.preserved.trans hpreserved, beside.shown.trans hshown,
          beside.frames.trans hframes, by simpa using hentities, by simpa using views, fun x hx => ?_,
          fun x _ hx hplaces => ?_⟩
        · obtain rfl := Finset.mem_singleton.mp hx
          exact ⟨hplain, .refl⟩
        · by_contra hne
          have := hplaces b hx (fun heq => hne (by simp [heq])) .refl
          rw [hp] at this
          cases this
    | some place =>
      obtain ⟨b', i⟩ := place
      have hchild := parent_child h hp
      have hlt := weight_child h.weighed hchild
      have up {x : ℕ} (hlist : isList g b' = false) (hx : Spans g x b') : Spans g x b :=
        hx.tail (cut_iff.mpr ⟨hlist, hchild⟩)
      have hne {x : ℕ} (hx : Spans g x b') : x ≠ b := fun heq =>
        no_way_back h hchild (spans_below (heq ▸ hx))
      obtain ⟨l, hl⟩ := hchild
      rw [Option.map_some]
      dsimp only
      refine yields_mono (ih tb' (mounted_of_kid hl) (by omega) (fun x n hlist hx hn => ?_)
        fun l x n hlist hx hn => ?_) ?_
      · rw [hentities, if_neg (hne hx)] at hn
        exact nodes x n hplain (up hlist hx) hn
      · rw [views, if_neg (hne hx)] at hn
        exact rows l x n hplain (up hlist hx) hn
      · rintro _ w ⟨met, z⟩
        have out : b ∉ met := fun hb => hne (z.way b hb).2 rfl
        refine ⟨insert b met, z.tables, z.preserved.trans (beside.preserved.trans hpreserved),
          z.shown.trans (beside.shown.trans hshown), z.frames.trans (beside.frames.trans hframes),
          fun x => ?_, fun l r => ?_, fun x hx => ?_, fun x _ hx hplaces => ?_⟩
        · rw [z.entities, hentities]
          by_cases hx : x = b
          · simp [hx, out]
          · simp [hx]
        · rw [z.views, views]
          by_cases hr : r = b
          · simp [hr, out]
          · simp [hr]
        · rcases Finset.mem_insert.mp hx with rfl | hx
          · exact ⟨hplain, .refl⟩
          · exact ⟨hplain, up (z.way x hx).1 (z.way x hx).2⟩
        · by_cases heq : x = b
          · exact heq ▸ Finset.mem_insert_self b met
          · rcases Relation.ReflTransGen.cases_tail hx with heq' | ⟨q, hxq, hqb⟩
            · exact absurd heq'.symm heq
            · obtain ⟨hlist, hchild'⟩ := cut_iff.mp hqb
              obtain rfl := child_unique h.linked hchild' ⟨l, hl⟩
              refine Finset.mem_insert_of_mem (z.complete x hlist hxq fun y hxy hne' hyq => ?_)
              exact hplaces y hxy hne' (hyq.tail hqb)

end Up

section Abandoned

variable {list r x fuel : ℕ} {kept : Finset ℕ}

theorem abandoned_total (h : Shape g) (list : ℕ) (kept : Finset ℕ)
    (enough : (forest g).Mounted x → g.nodes.size < fuel + (forest g).weight x) (positive : 0 < fuel) :
    ∃ b, abandonedFrom g list kept fuel x = .ok b := by
  induction fuel generalizing x with
  | zero => omega
  | succ fuel ih =>
    rw [abandonedFrom]
    cases hp : parentOf g x with
    | none => exact ⟨false, rfl⟩
    | some place =>
      obtain ⟨parent, i⟩ := place
      obtain ⟨l, hl⟩ := parent_child h hp
      have hlt := weight_child h.weighed ⟨l, hl⟩
      have hm := mounted_of_kid hl
      have hsize := weight_le_size h hm
      have := enough (h.linked.placed hl).1
      dsimp only
      split
      · exact ⟨_, rfl⟩
      · exact ih (fun _ => by omega) (by omega)

theorem abandoned_found (h : Shape g) (hr : (forest g).Child list r) (out : r ∉ kept)
    (hx : (forest g).Below r x)
    (places : ∀ y, (forest g).Below r y → (forest g).Below y x → (parentOf g y).isSome)
    (enough : g.nodes.size < fuel + (forest g).weight x) :
    abandonedFrom g list kept fuel x = .ok true := by
  have hm := mounted_below h (h.linked.placed hr.choose_spec).1 hx
  induction fuel generalizing x with
  | zero =>
    have := weight_le_size h hm
    omega
  | succ fuel ih =>
    rw [abandonedFrom]
    obtain ⟨⟨parent, i⟩, hp⟩ := Option.isSome_iff_exists.mp (places x hx .refl)
    have hchild := parent_child h hp
    rw [hp]
    dsimp only
    rcases Relation.ReflTransGen.cases_tail hx with rfl | ⟨b, hb, hbx⟩
    · rw [if_pos (child_unique h.linked hchild hr)]
      simp [out]
    · obtain rfl := child_unique h.linked hbx hchild
      have hne : b ≠ list := by
        rintro rfl
        exact no_way_back h hr hb
      rw [if_neg hne]
      have hlt := weight_child h.weighed hchild
      obtain ⟨l, hl⟩ := hchild
      exact ih hb (fun y hy hyb => places y hy (hyb.tail ⟨l, hl⟩)) (by omega) (mounted_of_kid hl)

theorem abandoned_of (h : Shape g) (list : ℕ) (kept : Finset ℕ) (xs : List ℕ) :
    ∃ ys, abandonedOf g list kept xs = .ok ys ∧
      ∀ x, x ∈ ys ↔ x ∈ xs ∧ abandonedFrom g list kept g.climb x = .ok true := by
  induction xs with
  | nil => exact ⟨[], rfl, by simp⟩
  | cons x xs ih =>
    obtain ⟨ys, hys, mem⟩ := ih
    obtain ⟨b, hb⟩ := @abandoned_total K _ g x g.climb h list kept
      (fun _ => by rw [MountedGraph.climb]; omega) (Nat.succ_pos _)
    refine ⟨if b then x :: ys else ys, ?_, fun y => ?_⟩
    · rw [abandonedOf, hb, hys]
      rfl
    · cases b with
      | false =>
        rw [if_neg Bool.false_ne_true, mem, List.mem_cons, or_and_right]
        refine (or_iff_right ?_).symm
        rintro ⟨rfl, htrue⟩
        rw [hb] at htrue
        cases htrue
      | true =>
        rw [if_pos rfl, List.mem_cons, mem, List.mem_cons, or_and_right]
        refine or_congr_left (Iff.symm (and_iff_left_of_imp ?_))
        rintro rfl
        exact hb

end Abandoned

end VirtualWalks
