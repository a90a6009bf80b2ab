import RocGui.FragmentTrees
import RocGui.GraphForests
import RocGui.GraphPatches
import RocGui.KeyedOrderRuns

/-! What the operations of a keyed transaction leave behind while the graph is only
read: an order whose items are original or staged, and the fragments staged so far. -/
namespace KeyedStaging

open FiniteMaps KeyedLists Methods KeyedOrder KeyedOrderLists KeyedOrderRuns GraphState
open FragmentValidation GraphPatches FragmentTrees

variable {K : Type} [DecidableEq K]

section Instances

omit [DecidableEq K]

theorem mem_instancesOf {nodes : List (Node K)} {i : ℕ} :
    i ∈ instancesOf nodes ↔ ∃ n ∈ nodes, n.kind = .boundary i := by
  rw [instancesOf, List.mem_filterMap]
  refine exists_congr fun n => and_congr_right fun _ => ?_
  split <;> simp_all

theorem instance_unique {nodes : List (Node K)} {n m : Node K} {i : ℕ}
    (distinct : (instancesOf nodes).Nodup) (hn : n ∈ nodes) (hm : m ∈ nodes)
    (hni : n.kind = .boundary i) (hmi : m.kind = .boundary i) : n = m := by
  by_contra hne
  refine @List.Pairwise.forall _ _ _ ⟨?_⟩ (List.pairwise_filterMap.mp distinct) n hn m hm hne i
    (by simp [hni]) i (by simp [hmi]) rfl
  exact fun a b h c hc d hd => (h d hd c hc).symm

theorem instancesOf_append (xs ys : List (Node K)) :
    instancesOf (xs ++ ys) = instancesOf xs ++ instancesOf ys := List.filterMap_append

/-- An instance that no component had so far. -/
def Newer (g : MountedGraph K) (i : ℕ) : Prop := ∀ newest ∈ g.maxSeenInstance, newest < i

end Instances

section Admission

variable {g : MountedGraph K} {replacing : Option ℕ} {nodes : List (Node K)}
  {seen seen' : Finset ℕ × Finset ℕ}

/-- What a fragment passes that is staged after the ids and instances of `seen`. -/
structure Admitted (g : MountedGraph K) (replacing : Option ℕ) (nodes : List (Node K))
    (seen seen' : Finset ℕ × Finset ℕ) : Prop where
  fresh : ∀ x ∈ ids nodes, g.maxSeenNodeId < x ∧ x ∉ seen.1
  staged : ∀ x, x ∈ seen'.1 ↔ x ∈ seen.1 ∨ x ∈ ids nodes
  apart : ∀ i ∈ instancesOf nodes, i ∉ seen.2 ∧ (some i = replacing ∨ Newer g i)
  distinct : (instancesOf nodes).Nodup
  instances : ∀ i, i ∈ seen'.2 ↔ i ∈ seen.2 ∨ i ∈ instancesOf nodes

omit [DecidableEq K] in
theorem validate_staged
    (h : validateKeyedStagedFragment g replacing seen.1 seen.2 nodes = .ok seen') :
    Admitted g replacing nodes seen seen' := by
  induction nodes generalizing seen with
  | nil =>
    obtain rfl : seen = seen' := Except.ok.inj h
    exact ⟨by simp [ids], by simp [ids], by simp [instancesOf], by simp [instancesOf],
      by simp [instancesOf]⟩
  | cons n rest ih =>
    simp only [validateKeyedStagedFragment] at h
    split at h
    · cases h
    rename_i hfresh
    rw [not_or, not_le] at hfresh
    split at h
    · rename_i i hkind
      split at h
      · cases h
      rename_i hseen
      split at h
      · cases h
      rename_i hnewer
      have admitted : Admitted g replacing rest (insert n.id seen.1, insert i seen.2) seen' := ih h
      have hinstances : instancesOf (n :: rest) = i :: instancesOf rest := by
        simp [instancesOf, hkind]
      refine ⟨fun x hx => ?_, fun x => ?_, fun q hq => ?_, ?_, fun q => ?_⟩
      · rcases List.mem_cons.mp hx with rfl | hx
        · exact hfresh
        · have := admitted.fresh x hx
          simp only [Finset.mem_insert, not_or] at this
          exact ⟨this.1, this.2.2⟩
      · rw [admitted.staged, ids_cons, List.mem_cons, Finset.mem_insert]
        tauto
      · rw [hinstances, List.mem_cons] at hq
        rcases hq with rfl | hq
        · refine ⟨hseen, ?_⟩
          by_cases heq : some q = replacing
          · exact .inl heq
          · refine .inr fun newest hm => ?_
            by_contra hle
            exact hnewer ⟨heq, newest, hm, not_lt.mp hle⟩
        · obtain ⟨hout, hq⟩ := admitted.apart q hq
          exact ⟨fun hmem => hout (Finset.mem_insert_of_mem hmem), hq⟩
      · rw [hinstances, List.nodup_cons]
        exact ⟨fun hmem => (admitted.apart i hmem).1 (Finset.mem_insert_self _ _), admitted.distinct⟩
      · rw [admitted.instances, hinstances, List.mem_cons, Finset.mem_insert]
        tauto
    · rename_i hkind
      have admitted : Admitted g replacing rest (insert n.id seen.1, seen.2) seen' := ih h
      have hinstances : instancesOf (n :: rest) = instancesOf rest := by
        rw [instancesOf, List.filterMap_cons]
        split
        · rfl
        · rename_i heq
          split at heq
          · rename_i i hi
            exact absurd hi (hkind i)
          · cases heq
      refine ⟨fun x hx => ?_, fun x => ?_, hinstances ▸ admitted.apart, hinstances ▸ admitted.distinct,
        hinstances ▸ admitted.instances⟩
      · rcases List.mem_cons.mp hx with rfl | hx
        · exact hfresh
        · have := admitted.fresh x hx
          simp only [Finset.mem_insert, not_or] at this
          exact ⟨this.1, this.2.2⟩
      · rw [admitted.staged, ids_cons, List.mem_cons, Finset.mem_insert]
        tauto

end Admission

section Operations

variable {g : MountedGraph K} {owner : Option ℕ} {base : KeyedChildOrder K}
  {l₀ l : KeyedList K (ℕ × ℕ)} {progress progress' : KeyedProgress K} {j j' : KeyedOrderJournal K}

def stagedNodes (fragments : List (FragmentPlan K)) : List (Node K) := fragments.flatMap (·.nodes)

structure Staging (g : MountedGraph K) (base : KeyedChildOrder K) (l₀ : KeyedList K (ℕ × ℕ))
    (progress : KeyedProgress K) (j : KeyedOrderJournal K) (l : KeyedList K (ℕ × ℕ)) : Prop where
  represents : Represents j.order l
  recoverable : Recoverable base j
  fragments : ∀ f ∈ progress.fragments, Fragment f.root f.nodes ∅ f.validated
  distinct : (ids (stagedNodes progress.fragments)).Nodup
  staged : ∀ x, x ∈ progress.stagedIds ↔ x ∈ ids (stagedNodes progress.fragments)
  fresh : ∀ x ∈ progress.stagedIds, g.maxSeenNodeId < x
  instances_distinct : (instancesOf (stagedNodes progress.fragments)).Nodup
  instances : ∀ i, i ∈ progress.stagedInstances ↔ i ∈ instancesOf (stagedNodes progress.fragments)
  items : ∀ {k r i}, l.get k = some (r, i) → l₀.get k = some (r, i) ∨
    ∃ f ∈ progress.fragments, f.key = k ∧ f.root = r ∧ ∃ n ∈ f.nodes, n.id = r ∧ n.kind = .boundary i
  newer : ∀ f ∈ progress.fragments, ∀ n ∈ f.nodes, ∀ i, n.kind = .boundary i → Newer g i ∨
    n.id = f.root ∧ ∃ r, l₀.get f.key = some (r, i)

theorem staging_start (h : Represents base l₀) :
    Staging g base l₀ ⟨[], [], ∅, ∅, 0⟩ (.new base) l₀ where
  represents := h
  recoverable := recoverable_new base
  fragments := by simp
  distinct := List.nodup_nil
  staged := by simp [stagedNodes, ids]
  fresh := by simp
  instances_distinct := List.nodup_nil
  instances := by simp [stagedNodes, instancesOf]
  items := .inl
  newer := by simp

theorem staging_note (s : Staging g base l₀ progress j l) {l' : KeyedList K (ℕ × ℕ)}
    (represents : Represents j'.order l') (recoverable : Recoverable base j')
    (kept : ∀ k v, l'.get k = some v → l.get k = some v) (edit : KeyedNativeEdit K) :
    Staging g base l₀ (progress.note edit) j' l' where
  represents
  recoverable
  fragments := s.fragments
  distinct := s.distinct
  staged := s.staged
  fresh := s.fresh
  instances_distinct := s.instances_distinct
  instances := s.instances
  items h := s.items (kept _ _ h)
  newer := s.newer

omit [DecidableEq K] in
theorem item_instance {root i : ℕ} {nodes : List (Node K)} {validated : ValidatedFragment K}
    (f : Fragment root nodes ∅ validated) (h : itemInstance g root validated = .ok i) :
    ∃ n ∈ nodes, n.id = root ∧ n.kind = .boundary i := by
  obtain ⟨n, hn, hid⟩ := List.mem_map.mp (f.root_listed.resolve_right (Finset.notMem_empty _))
  have hlookup : validated.lookup g.node root = some n := by
    rw [ValidatedFragment.lookup, f.fresh.mpr ⟨hn, hid⟩]
    rfl
  rw [itemInstance, hlookup] at h
  refine ⟨n, hn, hid, ?_⟩
  split at h
  · rename_i q hq
    obtain rfl := Except.ok.inj h
    simpa using hq
  · cases h

theorem staging_push (s : Staging g base l₀ progress j l) {l' : KeyedList K (ℕ × ℕ)}
    (represents : Represents j'.order l') (recoverable : Recoverable base j') {key : K}
    {root i : ℕ} {nodes : List (Node K)} {validated : ValidatedFragment K} {replacing : Option ℕ}
    {seen : Finset ℕ × Finset ℕ} (f : Fragment root nodes ∅ validated)
    (hroot : ∃ n ∈ nodes, n.id = root ∧ n.kind = .boundary i)
    (admitted : Admitted g replacing nodes (progress.stagedIds, progress.stagedInstances) seen)
    (hreplacing : ∀ q ∈ replacing, q = i ∧ ∃ r, l.get key = some (r, q))
    (kept : ∀ k v, l'.get k = some v → k = key ∧ v = (root, i) ∨ l.get k = some v)
    (edit : KeyedNativeEdit K) :
    Staging g base l₀ (progress.push ⟨key, root, nodes, validated⟩ edit seen) j' l' := by
  have hnodes : stagedNodes (progress.push ⟨key, root, nodes, validated⟩ edit seen).fragments =
      stagedNodes progress.fragments ++ nodes := by
    simp [stagedNodes, KeyedProgress.push]
  have mem {f' : FragmentPlan K} (hf : f' ∈ (progress.push ⟨key, root, nodes, validated⟩ edit
      seen).fragments) : f' ∈ progress.fragments ∨ f' = ⟨key, root, nodes, validated⟩ := by
    simpa [KeyedProgress.push] using hf
  refine ⟨represents, recoverable, fun f' hf => ?_, ?_, fun x => ?_, fun x hx => ?_, ?_, fun q => ?_,
    fun {k r q} hk => ?_, fun f' hf n hn q hq => ?_⟩
  · rcases mem hf with hf | rfl
    · exact s.fragments f' hf
    · exact f
  · rw [hnodes, ids, List.map_append, List.nodup_append']
    refine ⟨s.distinct, f.distinct, fun x hx hx' => ?_⟩
    exact (admitted.fresh x hx').2 ((s.staged x).mpr hx)
  · rw [hnodes, ids, List.map_append, List.mem_append]
    exact (admitted.staged x).trans (or_congr_left (s.staged x))
  · rcases (admitted.staged x).mp hx with hx | hx
    · exact s.fresh x hx
    · exact (admitted.fresh x hx).1
  · rw [hnodes, instancesOf_append, List.nodup_append']
    refine ⟨s.instances_distinct, admitted.distinct, fun q hq hq' => ?_⟩
    exact (admitted.apart q hq').1 ((s.instances q).mpr hq)
  · rw [hnodes, instancesOf_append, List.mem_append]
    exact (admitted.instances q).trans (or_congr_left (s.instances q))
  · rcases kept k _ hk with ⟨rfl, heq⟩ | hk
    · obtain ⟨rfl, rfl⟩ := Prod.mk.inj heq
      exact .inr ⟨⟨k, r, nodes, validated⟩, by simp [KeyedProgress.push], rfl, rfl, hroot⟩
    · rcases s.items hk with hold | ⟨f', hf, hitem⟩
      · exact .inl hold
      · exact .inr ⟨f', List.mem_append_left _ hf, hitem⟩
  · rcases mem hf with hf | rfl
    · exact s.newer f' hf n hn q hq
    · obtain ⟨hout, hq' | hnew⟩ := admitted.apart q (mem_instancesOf.mpr ⟨n, hn, hq⟩)
      · obtain ⟨rfl, r, hget⟩ := hreplacing q hq'.symm
        rcases s.items hget with hget | ⟨f', hf, -, -, m, hm, -, hkind⟩
        · refine .inr ⟨?_, r, hget⟩
          -- the instance is the root's, and no other node of the fragment has it
          obtain ⟨m, hm, hid, hkind⟩ := hroot
          rw [← hid, instance_unique admitted.distinct hn hm hq hkind]
        · refine absurd ((s.instances q).mpr (mem_instancesOf.mpr ⟨m, ?_, hkind⟩)) hout
          exact List.mem_flatMap.mpr ⟨f', hf, hm⟩
      · exact .inl hnew

/-- An accepted call of the journal is an accepted edit of the list. -/
theorem journal_ok {m : JournalMethod K Unit} {answer : Except (Refusal K) (KeyedList K (ℕ × ℕ))}
    (h : Simulates j m answer) {u : Unit} (hrun : m.run j = .ok u j') :
    ∃ l', answer = .ok l' ∧ Represents j'.order l' := by
  cases answer with
  | error r =>
    rw [Simulates] at h
    simp [hrun] at h
  | ok l' =>
    obtain ⟨t, ht, represents⟩ := h
    obtain ⟨-, rfl⟩ := EStateM.Result.ok.inj (hrun.symm.trans ht)
    exact ⟨l', rfl, represents⟩

theorem recoverable_run {m : JournalMethod K Unit} (h : Preserves (Recoverable base) m) {u : Unit}
    (r : Recoverable base j) (hrun : m.run j = .ok u j') : Recoverable base j' := by
  have := h j r
  rwa [hrun] at this

theorem child_ok {key : K} {c : KeyedChild K}
    (h : (KeyedOrderJournal.child key).run j = .ok c j') :
    j.order.children.get key = some c ∧ j' = j := by
  simp only [KeyedOrderJournal.child, bind_ok, get_ok] at h
  obtain ⟨_, _, ⟨rfl, rfl⟩, h⟩ := h
  split at h
  · rename_i d hd
    obtain ⟨rfl, rfl⟩ := pure_ok.mp h
    exact ⟨hd, rfl⟩
  · cases h

theorem represents_get (h : Represents j.order l) {key : K} {c : KeyedChild K}
    (hc : j.order.children.get key = some c) : l.get key = some (c.root, c.instanceId) := by
  rw [← h.contents, contents, hc]
  rfl

/-- The list edit one operation makes, given the instance of its fragment's root. -/
def orderEdit (instanceId : ℕ) : KeyedGraphOperation K → KeyedOrderOperation K
  | .insert key before root _ => .insert key root instanceId before
  | .remove key => .remove key
  | .move key before => .move key before
  | .set key root _ => .replace key root

theorem stage_operation (s : Staging g base l₀ progress j l) {op : KeyedGraphOperation K}
    (hrun : (stageOperation g owner progress op).run j = .ok progress' j') :
    ∃ l' i, edit l (orderEdit i op) = .ok l' ∧ Staging g base l₀ progress' j' l' := by
  cases op with
  | insert key before root nodes =>
    simp only [stageOperation, bind_ok, ofExcept_run_ok, refuseOrder, mapError_run_ok, pure_ok]
      at hrun
    obtain ⟨validated, _, ⟨hvalidated, rfl⟩, i, _, ⟨hitem, rfl⟩, seen, _, ⟨hseen, rfl⟩, u, _, hinsert,
      rfl, rfl⟩ := hrun
    have f : Fragment root nodes ∅ validated :=
      validated_fragment (except_mapError_ok.mp hvalidated)
    obtain ⟨l', hl, represents⟩ := journal_ok (insert_refines s.represents key root i before) hinsert
    obtain ⟨-, hget⟩ := insert_get hl
    refine ⟨l', i, hl, staging_push s represents
      (recoverable_run (preserves_insert key root i before) s.recoverable hinsert) f
      (item_instance f hitem) (validate_staged hseen) (by simp) (fun k v hk => ?_) _⟩
    rw [hget] at hk
    split at hk
    · rename_i heq
      exact .inl ⟨heq, (Option.some.inj hk).symm⟩
    · exact .inr hk
  | remove key =>
    simp only [stageOperation, bind_ok, refuseOrder, mapError_run_ok, pure_ok] at hrun
    obtain ⟨c, _, hchild, u, _, hremove, rfl, rfl⟩ := hrun
    obtain ⟨-, rfl⟩ := child_ok hchild
    obtain ⟨l', hl, represents⟩ := journal_ok (remove_refines s.represents key) hremove
    refine ⟨l', 0, hl, staging_note s represents
      (recoverable_run (preserves_remove key) s.recoverable hremove) (fun k v hk => ?_) _⟩
    rw [remove_get hl] at hk
    split at hk
    · cases hk
    · exact hk
  | move key before =>
    simp only [stageOperation, bind_ok, refuseOrder, mapError_run_ok, pure_ok] at hrun
    obtain ⟨u, _, hmove, rfl, rfl⟩ := hrun
    obtain ⟨l', hl, represents⟩ := journal_ok (move_refines s.represents key before) hmove
    exact ⟨l', 0, hl, staging_note s represents
      (recoverable_run (preserves_moveBefore key before) s.recoverable hmove)
      (fun k v hk => by rwa [move_get hl] at hk) _⟩
  | set key root nodes =>
    simp only [stageOperation, bind_ok, refuseOrder, mapError_run_ok] at hrun
    obtain ⟨c, _, hchild, hrun⟩ := hrun
    obtain ⟨hc, rfl⟩ := child_ok hchild
    simp only [ofExcept_run_ok] at hrun
    obtain ⟨validated, _, ⟨hvalidated, rfl⟩, i, _, ⟨hitem, rfl⟩, hrun⟩ := hrun
    split at hrun
    · obtain ⟨_, _, hrefused, -⟩ := bind_ok.mp hrun
      cases hrefused
    rename_i hsame
    rw [not_not] at hsame
    simp only [bind_ok, mapError_run_ok, ofExcept_run_ok, pure_ok] at hrun
    obtain ⟨seen, _, ⟨hseen, rfl⟩, u, _, hreplace, rfl, rfl⟩ := hrun
    have f : Fragment root nodes ∅ validated :=
      validated_fragment (except_mapError_ok.mp hvalidated)
    have held := represents_get s.represents hc
    obtain ⟨l', hl, represents⟩ := journal_ok (replace_refines s.represents key root) hreplace
    refine ⟨l', 0, hl, staging_push s represents
      (recoverable_run (preserves_replace key root) s.recoverable hreplace) f
      (item_instance f hitem) (validate_staged hseen) (fun q hq => ?_) (fun k v hk => ?_) _⟩
    · obtain rfl : c.instanceId = q := Option.some.inj hq
      exact ⟨hsame.symm, c.root, held⟩
    · rw [update_get hl] at hk
      split at hk
      · rename_i heq
        rw [heq, held, ← hsame] at hk
        exact .inl ⟨heq, (Option.some.inj hk).symm⟩
      · exact .inr hk

theorem stage_operations (s : Staging g base l₀ progress j l) {ops : List (KeyedGraphOperation K)}
    (hrun : (ops.foldlM (stageOperation g owner) progress).run j = .ok progress' j') :
    ∃ l', Staging g base l₀ progress' j' l' := by
  induction ops generalizing progress j l with
  | nil =>
    obtain ⟨rfl, rfl⟩ := foldlM_nil_ok.mp hrun
    exact ⟨l, s⟩
  | cons op ops ih =>
    obtain ⟨next, t, hop, hrest⟩ := foldlM_cons_ok.mp hrun
    obtain ⟨l', -, -, s'⟩ := stage_operation s hop
    exact ih s' hrest

end Operations

section Removal

variable {base : KeyedChildOrder K} {l₀ l : KeyedList K (ℕ × ℕ)} {j : KeyedOrderJournal K}

theorem represents_child {o : KeyedChildOrder K} (h : Represents o l) {k : K} {r : ℕ} :
    (∃ i, l.get k = some (r, i)) ↔ ∃ c, o.children.get k = some c ∧ c.root = r := by
  rw [← h.contents, contents]
  cases o.children.get k with
  | none => simp
  | some c => simp

/-- What one saved original says about the root it had. -/
theorem original_root (before : Represents base l₀) (after : Represents j.order l)
    (saved : Recoverable base j) {k : K} {original : Option (KeyedChild K)}
    (ho : j.originals.get k = some original) {r : ℕ} :
    (original.bind fun original => match j.order.children.get k with
      | some child => if child.root ≠ original.root then some original.root else none
      | none => some original.root) = some r ↔
    (∃ i, l₀.get k = some (r, i)) ∧ ∀ i, l.get k ≠ some (r, i) := by
  rw [represents_child before, ← not_exists, represents_child after, ← saved.saved k original ho]
  cases original with
  | none => simp
  | some c =>
    cases hc : j.order.children.get k with
    | none => simp
    | some child =>
      by_cases heq : child.root = c.root <;> by_cases hr : c.root = r <;> simp_all

theorem mem_removedRoots (hashOrder : Enumeration K (Option (KeyedChild K)))
    (before : Represents base l₀) (after : Represents j.order l) (saved : Recoverable base j)
    {r : ℕ} : r ∈ removedRoots hashOrder j ↔
      ∃ k, (∃ i, l₀.get k = some (r, i)) ∧ ∀ i, l.get k ≠ some (r, i) := by
  rw [removedRoots, List.mem_filterMap]
  constructor
  · rintro ⟨⟨k, original⟩, hmem, hroot⟩
    exact ⟨k, (original_root before after saved ((hashOrder.listed _ _ _).mp hmem)).mp hroot⟩
  · rintro ⟨k, held, gone⟩
    cases ho : j.originals.get k with
    | none =>
      -- an untouched key still has its item
      obtain ⟨c, hc, hroot⟩ := (represents_child before).mp held
      rw [← saved.untouched k ho] at hc
      obtain ⟨i, hi⟩ := (represents_child after).mpr ⟨c, hc, hroot⟩
      exact absurd hi (gone i)
    | some original =>
      exact ⟨(k, original), (hashOrder.listed _ _ _).mpr ho,
        (original_root before after saved ho).mpr ⟨held, gone⟩⟩

theorem removedRoots_nodup (hashOrder : Enumeration K (Option (KeyedChild K)))
    (before : Represents base l₀) (after : Represents j.order l) (saved : Recoverable base j)
    (distinct : (l₀.entries.map fun entry => entry.2.1).Nodup) :
    (removedRoots hashOrder j).Nodup := by
  refine List.pairwise_filterMap.mpr ((List.pairwise_map.mp (hashOrder.distinct j.originals)).imp_of_mem
    fun {a b} ha hb hne r hr r' hr' heq => hne ?_)
  obtain ⟨⟨i, hi⟩, -⟩ := (original_root before after saved ((hashOrder.listed _ a.1 a.2).mp ha)).mp hr
  obtain ⟨⟨i', hi'⟩, -⟩ :=
    (original_root before after saved ((hashOrder.listed _ b.1 b.2).mp hb)).mp hr'
  subst heq
  have hpair : (a.1, r, i) = (b.1, r, i') := List.inj_on_of_nodup_map distinct
    (mem_entries_iff.mpr hi) (mem_entries_iff.mpr hi') rfl
  exact (Prod.mk.inj hpair).1

end Removal

end KeyedStaging
