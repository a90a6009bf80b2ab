import RocGui.GraphListings

/-! The indices after a keyed transaction, and after any run of accepted patches. -/
namespace KeyedListings

open FiniteMaps KeyedLists Methods KeyedOrder GraphState FragmentValidation GraphPatches FragmentTrees
open FragmentOwners GraphForests GraphMounting GraphExchanges GraphGrafts GraphReplacements
open KeyedStaging KeyedTransactions GraphRuns GraphLedgers GraphIndices GraphOwners GraphListings
open PointerTrees Transitions

variable {K : Type}

section Checks

variable {g : MountedGraph K} {removed : Finset ℕ}

/-- A staged node beside the fragment it was validated in. -/
abbrev Survivor (K : Type) := ValidatedFragment K × Node K

def survivorsOf (fragments : List (FragmentPlan K)) : List (Survivor K) :=
  fragments.flatMap fun f => f.nodes.map fun n => (f.validated, n)

def Collide (p q : Survivor K) : Prop :=
  (∃ label a b o, p.2.kind = .textInput label a ∧ q.2.kind = .textInput label b ∧
    p.1.inputOwners.get p.2.id = some o ∧ q.1.inputOwners.get q.2.id = some o) ∨
  ∃ l l', p.2.kind = .dialog l ∧ q.2.kind = .dialog l'

theorem collide_symm {p q : Survivor K} (h : Collide p q) : Collide q p := by
  rcases h with ⟨label, a, b, o, hp, hq, hop, hoq⟩ | ⟨l, l', hp, hq⟩
  · exact .inl ⟨label, b, a, o, hq, hp, hoq, hop⟩
  · exact .inr ⟨l', l, hq, hp⟩

instance : Std.Symm fun p q : Survivor K => ¬Collide p q := ⟨fun _ _ h h' => h (collide_symm h')⟩

/-- What the check of one node has cleared, given the nodes before it. -/
structure Cleared (g : MountedGraph K) (removed : Finset ℕ)
    (seen : Bool × Finset (Option ℕ × String)) (p : Survivor K) : Prop where
  input : ∀ label enabled, p.2.kind = .textInput label enabled →
    ∃ o, p.1.inputOwners.get p.2.id = some o ∧ (o, label) ∉ seen.2 ∧
      ∀ id, g.inputLabels.get (o, label) = some id → id ∈ removed
  boundary : ∀ i, p.2.kind = .boundary i →
    ∀ id, g.boundaryInstances.get i = some id → id ∈ removed
  dialog : ∀ label, p.2.kind = .dialog label → seen.1 = false ∧
    ∀ id, g.dialog = some id → id ∈ removed

theorem check_survivor {seen seen' : Bool × Finset (Option ℕ × String)} {p : Survivor K}
    (h : checkSurvivor g removed p.1 seen p.2 = .ok seen') : Cleared g removed seen p ∧
      (seen.1 = true → seen'.1 = true) ∧ seen.2 ⊆ seen'.2 ∧
      (∀ label enabled o, p.2.kind = .textInput label enabled →
        p.1.inputOwners.get p.2.id = some o → (o, label) ∈ seen'.2) ∧
      ∀ label, p.2.kind = .dialog label → seen'.1 = true := by
  unfold checkSurvivor at h
  split at h
  · rename_i label hk
    split at h
    · cases h
    rename_i hclear
    obtain rfl := Except.ok.inj h
    rw [not_or, Bool.not_eq_true] at hclear
    refine ⟨⟨by simp [hk], by simp [hk], fun _ _ => ⟨hclear.1, fun id hid => ?_⟩⟩, fun _ => rfl,
      fun _ h => h, by simp [hk], fun _ _ => rfl⟩
    by_contra hout
    exact hclear.2 ⟨id, hid, hout⟩
  · rename_i label enabled hk
    split at h
    · cases h
    rename_i o ho
    split at h
    · cases h
    rename_i hclear
    obtain rfl := Except.ok.inj h
    rw [not_or] at hclear
    refine ⟨⟨fun l e hl => ?_, by simp [hk], by simp [hk]⟩, id, fun _ h => Finset.mem_insert_of_mem h,
      fun l e q hl hq => ?_, by simp [hk]⟩
    · obtain rfl : label = l := by
        rw [hk] at hl
        cases hl
        rfl
      refine ⟨o, ho, hclear.1, fun id hid => ?_⟩
      by_contra hout
      exact hclear.2 ⟨id, hid, hout⟩
    · obtain rfl : label = l := by
        rw [hk] at hl
        cases hl
        rfl
      obtain rfl := Option.some.inj (ho.symm.trans hq)
      exact Finset.mem_insert_self _ _
  · rename_i i hk
    split at h
    · cases h
    rename_i hclear
    obtain rfl := Except.ok.inj h
    refine ⟨⟨by simp [hk], fun j hj id hid => ?_, by simp [hk]⟩, id, fun _ h => h, by simp [hk],
      by simp [hk]⟩
    obtain rfl : i = j := by
      rw [hk] at hj
      cases hj
      rfl
    by_contra hout
    exact hclear ⟨id, hid, hout⟩
  · rename_i hd ht hb
    obtain rfl := Except.ok.inj h
    exact ⟨⟨fun l e hl => absurd hl (ht l e), fun i hi => absurd hi (hb i),
      fun l hl => absurd hl (hd l)⟩, id, fun _ h => h, fun l e o hl => absurd hl (ht l e),
      fun l hl => absurd hl (hd l)⟩

theorem check_survivors {seen seen' : Bool × Finset (Option ℕ × String)} {ps : List (Survivor K)}
    (h : ps.foldlM (fun seen p => checkSurvivor g removed p.1 seen p.2) seen = .ok seen') :
    (∀ p ∈ ps, Cleared g removed seen p) ∧ ps.Pairwise fun p q => ¬Collide p q := by
  induction ps generalizing seen with
  | nil => exact ⟨by simp, .nil⟩
  | cons p ps ih =>
    rw [List.foldlM_cons, except_bind_ok] at h
    obtain ⟨next, hp, hrest⟩ := h
    obtain ⟨cleared, dialogs, labels, noted, shown⟩ := check_survivor hp
    obtain ⟨later, apart⟩ := ih hrest
    refine ⟨fun q hq => ?_, List.pairwise_cons.mpr ⟨fun q hq hclash => ?_, apart⟩⟩
    · rcases List.mem_cons.mp hq with rfl | hq
      · exact cleared
      · refine ⟨fun l e hl => ?_, (later q hq).boundary, fun l hl => ?_⟩
        · obtain ⟨o, ho, hout, hclear⟩ := (later q hq).input l e hl
          exact ⟨o, ho, fun hmem => hout (labels hmem), hclear⟩
        · obtain ⟨hnext, hclear⟩ := (later q hq).dialog l hl
          refine ⟨?_, hclear⟩
          by_contra hseen
          rw [Bool.not_eq_false] at hseen
          cases hnext.symm.trans (dialogs hseen)
    · rcases hclash with ⟨label, a, b, o, hkp, hkq, hop, hoq⟩ | ⟨l, l', hkp, hkq⟩
      · obtain ⟨o', ho', hout, -⟩ := (later q hq).input label b hkq
        obtain rfl := Option.some.inj (hoq.symm.trans ho')
        exact hout (noted label a o hkp hop)
      · cases (shown l hkp).symm.trans ((later q hq).dialog l' hkq).1

theorem survivors_flat (fragments : List (FragmentPlan K)) (seen : Bool × Finset (Option ℕ × String)) :
    fragments.foldlM (fun seen fragment =>
        fragment.nodes.foldlM (checkSurvivor g removed fragment.validated) seen) seen =
      (survivorsOf fragments).foldlM (fun seen p => checkSurvivor g removed p.1 seen p.2) seen := by
  induction fragments generalizing seen with
  | nil => rfl
  | cons f rest ih =>
    have hcons : survivorsOf (f :: rest) = (f.nodes.map fun n => (f.validated, n)) ++ survivorsOf rest :=
      List.flatMap_cons
    rw [hcons, List.foldlM_append, List.foldlM_cons, List.foldlM_map]
    exact congrArg _ (funext fun seen => ih seen)

theorem mem_survivors {fragments : List (FragmentPlan K)} {f : FragmentPlan K} {n : Node K}
    (hf : f ∈ fragments) (hn : n ∈ f.nodes) : (f.validated, n) ∈ survivorsOf fragments :=
  List.mem_flatMap.mpr ⟨f, hf, List.mem_map_of_mem hn⟩

end Checks

section Staging

variable [DecidableEq K] {g : MountedGraph K} {owner : Option ℕ} {progress progress' : KeyedProgress K}
  {j j' : KeyedOrderJournal K}

def Validated (g : MountedGraph K) (owner : Option ℕ) (f : FragmentPlan K) : Prop :=
  validateFragment f.root f.nodes ∅ owner g.node = .ok f.validated

theorem operation_validated {op : KeyedGraphOperation K}
    (before : ∀ f ∈ progress.fragments, Validated g owner f)
    (hrun : (stageOperation g owner progress op).run j = .ok progress' j') :
    ∀ f ∈ progress'.fragments, Validated g owner f := by
  have pushed {f₀ : FragmentPlan K} {edit : KeyedNativeEdit K} {seen : Finset ℕ × Finset ℕ}
      (h₀ : Validated g owner f₀) : ∀ f ∈ (progress.push f₀ edit seen).fragments, Validated g owner f := by
    intro f hf
    rcases List.mem_append.mp hf with hf | hf
    · exact before f hf
    · obtain rfl := List.mem_singleton.mp hf
      exact h₀
  cases op with
  | insert key place root nodes =>
    simp only [stageOperation, bind_ok, ofExcept_run_ok, refuseOrder, mapError_run_ok, pure_ok]
      at hrun
    obtain ⟨validated, _, ⟨hvalidated, rfl⟩, i, _, -, seen, _, -, u, _, -, rfl, rfl⟩ := hrun
    exact pushed (except_mapError_ok.mp hvalidated)
  | remove key =>
    simp only [stageOperation, bind_ok, refuseOrder, mapError_run_ok, pure_ok] at hrun
    obtain ⟨c, _, -, u, _, -, rfl, rfl⟩ := hrun
    exact before
  | move key place =>
    simp only [stageOperation, bind_ok, refuseOrder, mapError_run_ok, pure_ok] at hrun
    obtain ⟨u, _, -, rfl, rfl⟩ := hrun
    exact before
  | set key root nodes =>
    simp only [stageOperation, bind_ok, refuseOrder, mapError_run_ok, ofExcept_run_ok] at hrun
    obtain ⟨c, _, -, validated, _, ⟨hvalidated, rfl⟩, i, _, -, hrun⟩ := hrun
    split at hrun
    · obtain ⟨_, _, hrefused, -⟩ := bind_ok.mp hrun
      cases hrefused
    simp only [bind_ok, mapError_run_ok, ofExcept_run_ok, pure_ok] at hrun
    obtain ⟨seen, _, -, u, _, -, rfl, rfl⟩ := hrun
    exact pushed (except_mapError_ok.mp hvalidated)

theorem operations_validated {ops : List (KeyedGraphOperation K)}
    (before : ∀ f ∈ progress.fragments, Validated g owner f)
    (hrun : (ops.foldlM (stageOperation g owner) progress).run j = .ok progress' j') :
    ∀ f ∈ progress'.fragments, Validated g owner f := by
  induction ops generalizing progress j with
  | nil =>
    obtain ⟨rfl, rfl⟩ := foldlM_nil_ok.mp hrun
    exact before
  | cons op ops ih =>
    obtain ⟨next, t, hop, hrest⟩ := foldlM_cons_ok.mp hrun
    exact ih (operation_validated before hop) hrest

def OwnedAmong (fragments : List (FragmentPlan K)) (x : ℕ) (o : Option ℕ) : Prop :=
  ∃ f ∈ fragments, x ∈ ids f.nodes ∧ f.validated.inputOwners.get x = some o

theorem prepared_checks {hashOrder : Enumeration K (Option (KeyedChild K))}
    {operations : List (KeyedGraphOperation K)} {prepared : PreparedFragments K}
    (hrun : (prepare hashOrder g owner operations).run j = .ok prepared j') :
    (∀ f ∈ prepared.fragments, Validated g owner f) ∧
      (∀ p ∈ survivorsOf prepared.fragments,
        Cleared g prepared.removedIds.toFinset (false, ∅) p) ∧
      (survivorsOf prepared.fragments).Pairwise fun p q => ¬Collide p q := by
  simp only [prepare, bind_ok, get_ok, ofExcept_run_ok, pure_ok] at hrun
  obtain ⟨progress, t, hstage, _, _, ⟨rfl, rfl⟩, walks, _, ⟨hwalks, rfl⟩, seen, _, ⟨hseen, rfl⟩, rfl,
    rfl⟩ := hrun
  rw [survivors_flat] at hseen
  obtain ⟨cleared, apart⟩ := check_survivors hseen
  have sub := List.filter_sublist (l := progress.fragments) (p := survives t.order)
  exact ⟨fun f hf => operations_validated (by simp) hstage f (sub.subset hf), cleared, apart⟩

omit [DecidableEq K] in
theorem keyed_clear {fragments : List (FragmentPlan K)} {removed : List ℕ}
    (distinct : (ids (stagedNodes fragments)).Nodup)
    (instances : (instancesOf (stagedNodes fragments)).Nodup)
    (cleared : ∀ p ∈ survivorsOf fragments, Cleared g removed.toFinset (false, ∅) p)
    (apart : (survivorsOf fragments).Pairwise fun p q => ¬Collide p q) :
    Clear g removed (stagedNodes fragments) (OwnedAmong fragments) := by
  have from_fragment {n : Node K} (hn : n ∈ stagedNodes fragments) :
      ∃ f ∈ fragments, n ∈ f.nodes := List.mem_flatMap.mp hn
  have same {n m : Node K} (hn : n ∈ stagedNodes fragments) (hm : m ∈ stagedNodes fragments)
      (heq : n.id = m.id) : n = m := List.inj_on_of_nodup_map distinct hn hm heq
  have clash {f f' : FragmentPlan K} {n m : Node K} (hf : f ∈ fragments) (hf' : f' ∈ fragments)
      (hn : n ∈ f.nodes) (hm : m ∈ f'.nodes) (hc : Collide (f.validated, n) (f'.validated, m)) :
      n.id = m.id := by
    by_contra hne
    refine apart.forall (mem_survivors hf hn) (mem_survivors hf' hm) (fun heq => hne ?_) hc
    rw [(Prod.mk.inj heq).2]
  have owned {n : Node K} {o : Option ℕ} (hn : n ∈ stagedNodes fragments)
      (ho : OwnedAmong fragments n.id o) :
      ∃ f ∈ fragments, n ∈ f.nodes ∧ f.validated.inputOwners.get n.id = some o := by
    obtain ⟨f, hf, hid, ho⟩ := ho
    obtain ⟨m, hm, heq⟩ := List.mem_map.mp hid
    obtain rfl := same (List.mem_flatMap.mpr ⟨f, hf, hm⟩) hn heq
    exact ⟨f, hf, hm, ho⟩
  refine ⟨fun n hn label enabled hk => ?_, fun n hn i hk id hid => ?_, fun n hn label hk id hid => ?_,
    fun n hn m hm label a b o hkn hkm hon hom => ?_, instances,
    fun n hn m hm l l' hkn hkm => ?_⟩
  · obtain ⟨f, hf, hn'⟩ := from_fragment hn
    obtain ⟨o, ho, -, hclear⟩ := (cleared _ (mem_survivors hf hn')).input label enabled hk
    exact ⟨o, ⟨f, hf, List.mem_map_of_mem hn', ho⟩, fun id hid => List.mem_toFinset.mp (hclear id hid)⟩
  · obtain ⟨f, hf, hn'⟩ := from_fragment hn
    exact List.mem_toFinset.mp ((cleared _ (mem_survivors hf hn')).boundary i hk id hid)
  · obtain ⟨f, hf, hn'⟩ := from_fragment hn
    exact List.mem_toFinset.mp (((cleared _ (mem_survivors hf hn')).dialog label hk).2 id hid)
  · obtain ⟨f, hf, hn', ho⟩ := owned hn hon
    obtain ⟨f', hf', hm', ho'⟩ := owned hm hom
    exact clash hf hf' hn' hm' (.inl ⟨label, a, b, o, hkn, hkm, ho, ho'⟩)
  · obtain ⟨f, hf, hn'⟩ := from_fragment hn
    obtain ⟨f', hf', hm'⟩ := from_fragment hm
    exact same hn hm (clash hf hf' hn' hm' (.inr ⟨l, l', hkn, hkm⟩))

end Staging

section Mounting

variable [DecidableEq K] {t t' v : MountedGraph K} {owner : ℕ → Option ℕ} {container : ℕ}
  {order : KeyedChildOrder K}

theorem mount_fragments_lists {fragments : List (FragmentPlan K)} {u : PUnit}
    (set : Ready t v owner (stagedNodes fragments))
    (distinct : (ids (stagedNodes fragments)).Nodup)
    (owned : ∀ f ∈ fragments, ∀ n ∈ f.nodes, ∀ o, f.validated.inputOwners.get n.id = some o →
      owner n.id = o)
    (hrun : (fragments.forM (mountFragment container order)).run t = .ok u t') :
    Listed t t' owner (stagedNodes fragments) := by
  induction fragments generalizing t with
  | nil =>
    obtain rfl := forM_nil_ok.mp hrun
    exact ⟨by simp [stagedNodes], fun _ _ => rfl, set.exact, set.armed, fun m hm => ⟨m, hm, le_rfl⟩⟩
  | cons f rest ih =>
    obtain ⟨t₂, hf, hrest⟩ := forM_cons_ok.mp hrun
    simp only [mountFragment, bind_ok, expect_ok] at hf
    obtain ⟨_, t₁, hinsert, child, _, ⟨-, rfl⟩, halter⟩ := hf
    have hcons : stagedNodes (f :: rest) = f.nodes ++ stagedNodes rest := List.flatMap_cons
    rw [hcons] at set distinct ⊢
    rw [ids_append, List.nodup_append'] at distinct
    obtain ⟨here, there, apart⟩ := distinct
    have inl {n : Node K} (hn : n ∈ f.nodes) : n ∈ f.nodes ++ stagedNodes rest :=
      List.mem_append_left _ hn
    have inr {n : Node K} (hn : n ∈ stagedNodes rest) : n ∈ f.nodes ++ stagedNodes rest :=
      List.mem_append_right _ hn
    have listed := insert_lists here (fun n hn => set.free n (inl hn)) set.exact set.armed set.apart
      (fun n hn => set.new n (inl hn)) set.old (owned f (by simp)) hinsert
    obtain ⟨hkinds, hledger⟩ := Prod.mk.inj
      (kept_of_preserves (φ := register) (fun c => by exact preserves_alter fun _ => rfl) halter)
    have away {n : Node K} (hn : n ∈ stagedNodes rest) : n.id ∉ ids f.nodes := fun hmem =>
      apart hmem (List.mem_map_of_mem hn)
    have set₂ : Ready t₂ v owner (stagedNodes rest) := {
      free := fun n hn => by
        rw [hkinds, listed.away _ (away hn)]
        exact set.free n (inr hn)
      exact := by
        rw [hkinds, hledger]
        exact listed.exact
      armed := by
        rw [hkinds, hledger]
        exact listed.armed
      apart := set.apart
      new := fun n hn => set.new n (inr hn)
      old := fun x k hx => by
        rw [hkinds] at hx
        by_cases hmem : x ∈ ids f.nodes
        · obtain ⟨n, hn, rfl⟩ := List.mem_map.mp hmem
          rw [← hx, listed.fresh n hn]
          exact set.new n (inl hn)
        · rw [listed.away x hmem] at hx
          exact set.old x k hx }
    have listed₂ := ih set₂ there (fun f' hf' => owned f' (by simp [hf'])) hrest
    refine ⟨fun n hn => ?_, fun x hx => ?_, listed₂.exact, listed₂.armed, fun m hm => ?_⟩
    · rcases List.mem_append.mp hn with hn | hn
      · rw [listed₂.away n.id fun hmem => apart (List.mem_map_of_mem hn) hmem, hkinds,
          listed.fresh n hn]
      · exact listed₂.fresh n hn
    · rw [ids_append, List.mem_append, not_or] at hx
      rw [listed₂.away x hx.2, hkinds, listed.away x hx.1]
    · obtain ⟨m₁, hm₁, hle⟩ := listed.newest m hm
      obtain ⟨m₂, hm₂, hle'⟩ := listed₂.newest m₁ (hledger ▸ hm₁)
      exact ⟨m₂, hm₂, hle.trans hle'⟩

end Mounting

section Committing

variable [DecidableEq K] {g g' : MountedGraph K} {container baseRevision newRevision : ℕ}
  {operations : List (KeyedGraphOperation K)} {hashOrder : Enumeration K (Option (KeyedChild K))}

omit [DecidableEq K] in
theorem register_withOrder {entry : MountedNode K} (he : g.nodes.get container = some entry)
    (o : Option (KeyedChildOrder K)) : register (withOrder container entry o g) = register g := by
  have hkinds : kindAt (withOrder container entry o g) = kindAt g := by
    rw [withOrder, kindAt_set, ← kindAt_eq he, Function.update_eq_self]
  rw [register, register, hkinds]
  rfl

theorem container_owns (h : Shape g) {entry : MountedNode K} {outer : Option ℕ}
    (he : g.nodes.get container = some entry)
    (houter : (withOrder container entry none g).componentOwner container =
      (.ok outer : Reading K (Option ℕ))) : OwnsUnder g container outer := by
  have hkinds : kindAt (withOrder container entry none g) = kindAt g :=
    (Prod.mk.inj (register_withOrder he none)).1
  have hparents := (reordered he none).2.1
  have is_some (x : ℕ) : ((withOrder container entry none g).nodes.get x).isSome ↔
      (g.nodes.get x).isSome := by
    rw [withOrder, FiniteMap.get_set]
    split
    · rename_i heq
      simp [heq, he]
    · exact Iff.rfl
  have under := owner_from (fun c l hl => (is_some _).mpr (parents_mounted h c l (hparents ▸ hl)))
    ((is_some _).mpr (Option.isSome_of_eq_some he)) houter
  rw [OwnsUnder, hkinds] at under
  exact under.imp_right fun owns => ⟨owns.1, owned_congr hparents.symm hkinds.symm owns.2⟩

structure Reported (a : GraphApply K) (keyed : KeyedGraphApply K) : Prop where
  stagedIds : a.stagedIds = keyed.stagedIds
  removedIds : a.removedIds = keyed.removedIds
  stagedInstances : a.stagedInstances = keyed.stagedInstances
  removedInstances : a.removedInstances = keyed.removedInstances

theorem reported {a : GraphApply K}
    (hrun : (apply hashOrder (.keyed container baseRevision newRevision operations)).run g =
      .ok a g') : ∃ keyed, (applyKeyed hashOrder container baseRevision newRevision operations).run g =
        .ok keyed g' ∧ Reported a keyed := by
  simp only [apply, bind_ok, get_ok, pure_ok] at hrun
  obtain ⟨keyed, _, hkeyed, _, _, ⟨rfl, rfl⟩, rfl, rfl⟩ := hrun
  exact ⟨keyed, hkeyed, rfl, rfl, rfl, rfl⟩

theorem keyed_indexed (h : Shape g) (idx : Indexed g) {a : GraphApply K} {keyed : KeyedGraphApply K}
    (report : Reported a keyed)
    (hrun : (applyKeyed hashOrder container baseRevision newRevision operations).run g =
      .ok keyed g') : Indexed g' ∧ ∃ nodes, Turnover g g' a nodes := by
  obtain ⟨entry, outer, prepared, j, hentry, -, houter, hprepare, hcommit⟩ := apply_keyed_ok hrun
  obtain ⟨l₀, l, p, e⟩ := commit_grafted h hentry hprepare hcommit
  have he := (keyed_base h hentry).1
  obtain ⟨valid, cleared, apart⟩ := prepared_checks hprepare
  simp only [commitKeyed, exchangeKeyed, bind_ok, query_run_ok, pure_ok] at hcommit
  obtain ⟨oldSize, _, ⟨hsize, rfl⟩, carried, g0, hcarry, ended, t4, ⟨ended', t, hretire, _, t1, hmount,
    _, t2, hresize, _, t3, hput, rfl, rfl⟩, _, g1, hfinish, rfl, rfl⟩ := hcommit
  have T := grafted_turned e h
  have clear : Clear g prepared.removedIds (stagedNodes prepared.fragments)
      (OwnedAmong prepared.fragments) := keyed_clear p.distinct p.instances_distinct
    (fun q hq => ⟨(cleared q hq).input, (cleared q hq).boundary, (cleared q hq).dialog⟩) apart
  have under := container_owns h he houter
  have root {f : FragmentPlan K} (hf : f ∈ prepared.fragments) : OwnedBy g1 f.root outer := by
    obtain ⟨i, -, hplace⟩ := placeOf_eq p newRevision hf
    have htop : g1.parentLocation f.root = some (.keyed container f.key i) :=
      e.parent_top (List.mem_map.mpr ⟨f, hf, hplace⟩)
    obtain ⟨hm, hr⟩ := e.graft.site_kept container rfl
    exact owned_under htop (owns_under_kept e h (by simp) under hm hr (Finset.notMem_empty _))
  have owned_v {x : ℕ} {o : Option ℕ} (ho : OwnedAmong prepared.fragments x o) : OwnedBy g1 x o := by
    obtain ⟨f, hf, -, ho⟩ := ho
    refine owned_fresh e h (fun id n hn => ?_) (root hf) ((validated_sole (valid f hf)).owned ho)
    obtain ⟨hn, hid⟩ := (p.fragments f hf).fresh.mp hn
    exact ⟨List.mem_flatMap.mpr ⟨f, hf, hn⟩, hid⟩
  obtain ⟨owner, exact, howned⟩ := idx.listed
  obtain ⟨owner', howner'⟩ := exists_owner g1
  have owned_kept_v {x : ℕ} {label : String} {enabled : Bool} (hr : x ∉ prepared.removedIds)
      (hx : kindAt g x = some (.textInput label enabled)) : OwnedBy g1 x (owner x) :=
    owned_kept e h (by simp) (howned x label enabled hx) (mounted_of_kind hx) hr
      (Finset.notMem_empty _)
  have kept (x : ℕ) (label : String) (enabled : Bool) (hr : x ∉ prepared.removedIds)
      (hx : kindAt g x = some (.textInput label enabled)) : owner' x = owner x :=
    howner' x _ (owned_kept_v hr hx)
  have fresh (x : ℕ) (o : Option ℕ) (ho : OwnedAmong prepared.fragments x o) : owner' x = o :=
    howner' x o (owned_v ho)
  have hstart : kindAt (withOrder container entry none g) = kindAt g :=
    (Prod.mk.inj (register_withOrder he none)).1
  have carry : kindAt g0 = kindAt g ∧ ledger g0 = { ledger g with
      regions := (ledger g).regions \ prepared.removedIds.toFinset
      windowRegions := (ledger g).windowRegions \ prepared.removedIds.toFinset } := by
    obtain ⟨hkinds, hledger⟩ := carry_all hcarry
    exact ⟨hkinds.trans hstart, hledger⟩
  have unlisted := retire_unlists (exact_carried exact carry) hretire
  have unused {n : Node K} (hn : n ∈ stagedNodes prepared.fragments) : g.maxSeenNodeId < n.id :=
    p.fresh _ (List.mem_map_of_mem hn)
  have set := ready T (fun n hn => kind_unused h (unused hn)) idx.armed
    (clear_apart T exact clear kept fresh) kept carry unlisted
  have listed := mount_fragments_lists set p.distinct
    (fun f hf n hn o ho => fresh n.id o ⟨f, hf, List.mem_map_of_mem hn, ho⟩) hmount
  have same : register g1 = register t1 :=
    (kept_of_preserves (fun c => register_finish _ _ _) hfinish).trans <|
    (kept_of_preserves (fun c => by exact preserves_alter fun _ => rfl) hput).trans
      (kept_of_preserves (fun c => register_resizeContainer _ _ _) hresize)
  have hnodes : prepared.nodes = stagedNodes prepared.fragments := by
    rw [PreparedFragments.nodes, stagedNodes, List.flatMap]
  refine ⟨indexed_of_listed listed same fun x label enabled hx => ?_, stagedNodes prepared.fragments,
    report.removedIds ▸ T, fun i => ?_, ?_, ?_, p.fresh, p.instances_distinct, fun i hi => ?_,
    newest_of_listed listed same unlisted carry⟩
  · rcases T.cases hx with ⟨hr, hx⟩ | ⟨n, hn, rfl, hk⟩
    · rw [kept x label enabled hr hx]
      exact owned_kept_v hr hx
    · obtain ⟨o, ho, -⟩ := clear.inputs n hn label enabled hk
      rw [fresh n.id o ho]
      exact owned_v ho
  · rw [report.removedInstances, report.removedIds, unlisted.ended, carry.1]
    simp
  · rw [report.stagedInstances, ← hnodes]
  · rw [report.stagedIds, ids, ← hnodes]
  · obtain ⟨n, hn, hk⟩ := mem_instancesOf.mp hi
    rw [report.removedIds]
    exact clear.boundaries n hn i hk

end Committing

section Runs

variable [DecidableEq K] {g g' : MountedGraph K} {patch : Patch K}

omit [DecidableEq K] in
theorem indexed_empty : Indexed (.empty : MountedGraph K) := by
  have hkinds : kindAt (.empty : MountedGraph K) = fun _ => none := by
    funext id
    simp [kindAt, MountedGraph.node, MountedGraph.empty]
  have hledger : ledger (.empty : MountedGraph K) = ⟨∅, ∅, ∅, none, none, ∅, ∅⟩ := rfl
  refine ⟨⟨fun _ => none, ?_, by simp [hkinds]⟩, ?_⟩
  · rw [hkinds, hledger]
    constructor <;> simp
  · rw [hkinds, hledger]
    constructor <;> simp

theorem step_turnover (h : Shape g) (idx : Indexed g)
    {hashOrder : Enumeration K (Option (KeyedChild K))} {a : GraphApply K}
    (hrun : (apply hashOrder patch).run g = .ok a g') :
    Indexed g' ∧ ∃ nodes, Turnover g g' a nodes := by
  have replaced {r : Replacement K} (hrun : (applyReplacement r).run g = .ok a g') :
      Indexed g' ∧ ∃ nodes, Turnover g g' a nodes :=
    (replacement_indexed h idx hrun).imp_right fun turnover => ⟨_, turnover⟩
  cases patch with
  | mount root nodes => exact replaced hrun
  | noChange =>
    simp only [apply, bind_ok, get_ok, pure_ok] at hrun
    obtain ⟨_, _, ⟨rfl, rfl⟩, rfl, rfl⟩ := hrun
    refine ⟨idx, [], ⟨fun _ _ _ => rfl, by simp, by simp⟩, by simp, rfl, rfl, by simp [ids],
      List.nodup_nil, by simp [instancesOf], fun m hm => ⟨m, hm, le_rfl⟩⟩
  | replace oldRoot root nodes => exact replaced hrun
  | replaceRetaining oldRoot root nodes retainedRoots => exact replaced hrun
  | keyed container baseRevision newRevision operations =>
    obtain ⟨keyed, hkeyed, report⟩ := reported hrun
    exact keyed_indexed h idx report hkeyed

theorem indexed_reachable (h : Reachable (accepting K) g) : Shape g ∧ Indexed g := by
  refine reachable_invariant (S := accepting K) (P := fun g => Shape g ∧ Indexed g)
    ⟨shape_empty, indexed_empty⟩ (fun s patch t hs step => ⟨step_shape hs.1 step, ?_⟩) h
  obtain ⟨hashOrder, a, hrun⟩ := step
  exact (step_turnover hs.1 hs.2 hrun).1

end Runs

section Exactness

/-- Every index, read off the mounted nodes. A divider's shortcuts are never live wherever
focus is, whatever their scope. -/
structure ExactIndices (g : MountedGraph K) : Prop where
  boundaries : ∀ i id, g.boundaryInstances.get i = some id ↔ kindAt g id = some (.boundary i)
  owned : ∀ id label enabled, kindAt g id = some (.textInput label enabled) → ∃ o, OwnedBy g id o
  inputOwners : ∀ id o, g.inputOwners.get id = some o ↔
    (∃ label enabled, kindAt g id = some (.textInput label enabled)) ∧ OwnedBy g id o
  inputLabels : ∀ o label id, g.inputLabels.get (o, label) = some id ↔
    (∃ enabled, kindAt g id = some (.textInput label enabled)) ∧ OwnedBy g id o
  labelsApart : ∀ x y label a b o, kindAt g x = some (.textInput label a) →
    kindAt g y = some (.textInput label b) → OwnedBy g x o → OwnedBy g y o → x = y
  dialog : ∀ id, g.dialog = some id ↔ ∃ label, kindAt g id = some (.dialog label)
  regions : ∀ id, id ∈ g.interaction.keyboard.regions ↔
    ∃ kind, kindAt g id = some kind ∧ shortcutsOf kind ≠ []
  windowRegions : ∀ id, id ∈ g.interaction.keyboard.windowRegions ↔
    ∃ kind, kindAt g id = some kind ∧ armsWindow kind = true

theorem exact_indices {g : MountedGraph K} (idx : Indexed g) : ExactIndices g := by
  obtain ⟨⟨owner, exact, howned⟩, armed⟩ := idx
  have owner_iff {id : ℕ} {label : String} {enabled : Bool} {o : Option ℕ}
      (hid : kindAt g id = some (.textInput label enabled)) : owner id = o ↔ OwnedBy g id o :=
    ⟨fun ho => ho ▸ howned id label enabled hid,
      fun ho => owned_unique (howned id label enabled hid) ho⟩
  exact {
    boundaries := fun i id => exact.boundaries
    owned := fun id label enabled hid => ⟨_, howned id label enabled hid⟩
    inputOwners := fun id o => exact.owners.trans
      (and_congr_right fun ⟨label, enabled, hid⟩ => owner_iff hid)
    inputLabels := fun o label id => exact.labels.trans
      (and_congr_right fun ⟨enabled, hid⟩ => owner_iff hid)
    labelsApart := fun x y label a b o hx hy hox hoy =>
      (exact_apart exact).inputs hx hy
        (((owner_iff hx).mpr hox).trans ((owner_iff hy).mpr hoy).symm)
    dialog := fun id => exact.dialog
    regions := fun id => armed.regions
    windowRegions := fun id => armed.windowRegions }

theorem reachable_exact [DecidableEq K] {g : MountedGraph K} (h : Reachable (accepting K) g) :
    ExactIndices g := exact_indices (indexed_reachable h).2

/-- A divider that has a shortcut beside a region that has one for the whole window. -/
def shortcutsMounted : Patch ℕ := .mount 1
  [⟨1, .split "width" .start 1 0 2 false false [⟨"ctrl-k", .focus⟩], [2, 3]⟩,
    ⟨2, .popover "" 0 false false [⟨"ctrl-j", .window⟩] 0, [4]⟩, ⟨3, .text, []⟩, ⟨4, .text, []⟩]

def inputBeside : Patch ℕ := .replace 3 5 [⟨5, .boundary 9, [6]⟩, ⟨6, .textInput "name" true, []⟩]

theorem shortcuts_reached : Reachable (accepting ℕ) (afterPatch .empty shortcutsMounted) :=
  reachable_step (reachable_initial (accepting ℕ))
    (accepted_step (g := .empty) shortcutsMounted (by decide +kernel))

theorem two_patches_exact :
    ExactIndices (afterPatch (afterPatch .empty shortcutsMounted) inputBeside) :=
  reachable_exact (reachable_step shortcuts_reached
    (accepted_step (g := afterPatch .empty shortcutsMounted) inputBeside (by decide +kernel)))

def Declares (g : MountedGraph K) (id : ℕ) (scope : ShortcutScope) : Prop :=
  ∃ kind, kindAt g id = some kind ∧ ∃ s ∈ shortcutsOf kind, s.scope = scope

theorem shortcuts_listed : ∃ g : MountedGraph ℕ, Reachable (accepting ℕ) g ∧
    g.interaction.keyboard.regions = {1, 2} ∧ g.interaction.keyboard.windowRegions = {2} ∧
    kindAt g 2 = some (.popover "" 0 false false [⟨"ctrl-j", .window⟩] 0) :=
  ⟨afterPatch .empty shortcutsMounted, shortcuts_reached, by decide +kernel, by decide +kernel,
    by decide +kernel⟩

/-- The host stages no such divider: those of a divider are shortcuts for where focus is. -/
def windowDivider : Patch ℕ := .mount 1
  [⟨1, .split "width" .start 1 0 2 false false [⟨"ctrl-k", .window⟩], [2, 3]⟩, ⟨2, .text, []⟩,
    ⟨3, .text, []⟩]

theorem divider_unlisted : ∃ g : MountedGraph ℕ, Reachable (accepting ℕ) g ∧
    g.interaction.keyboard.windowRegions = ∅ ∧
    kindAt g 1 = some (.split "width" .start 1 0 2 false false [⟨"ctrl-k", .window⟩]) :=
  ⟨afterPatch .empty windowDivider, reachable_step (reachable_initial (accepting ℕ))
    (accepted_step (g := .empty) windowDivider (by decide +kernel)), by decide +kernel, by decide +kernel⟩

/-- Neither set goes by the scope alone: a region with a window shortcut only is in the first, and
a divider with one is not in the second. The second part is about graphs only. -/
theorem regions_not_by_scope :
    (¬∀ g : MountedGraph ℕ, Reachable (accepting ℕ) g →
      ∀ id, id ∈ g.interaction.keyboard.regions ↔ Declares g id .focus) ∧
    ¬∀ g : MountedGraph ℕ, Reachable (accepting ℕ) g →
      ∀ id, id ∈ g.interaction.keyboard.windowRegions ↔ Declares g id .window := by
  refine ⟨fun claim => ?_, fun claim => ?_⟩
  · obtain ⟨g, reached, regions, -, second⟩ := shortcuts_listed
    obtain ⟨kind, hkind, s, hs, hscope⟩ := (claim g reached 2).mp (by simp [regions])
    rw [second, Option.some.injEq] at hkind
    rw [← hkind, shortcutsOf, List.mem_singleton] at hs
    rw [hs] at hscope
    cases hscope
  · obtain ⟨g, reached, windowRegions, first⟩ := divider_unlisted
    have listed := (claim g reached 1).mpr ⟨_, first, _, List.mem_singleton.mpr rfl, rfl⟩
    simp [windowRegions] at listed

end Exactness

end KeyedListings
