import RocGui.GraphPatches
import RocGui.KeyedOrderRuns

/-! A refused patch leaves the graph exactly as it was. What is written before the last
check is the keyed order, and the journal puts it back. -/
namespace GraphAtomicity

open FiniteMaps Methods KeyedOrder GraphState FragmentValidation GraphPatches KeyedOrderRuns

variable {K : Type}

/-- A reading that may panic or run on, but has no error to report. -/
def Sound {ε α : Type} (r : Except (Failure ε) α) : Prop := ∀ e, r ≠ .error (.error e)

section Readings

variable {ε α β : Type}

theorem sound_ok (a : α) : Sound (.ok a : Except (Failure ε) α) := fun _ h => by cases h
theorem sound_panic (message : String) : Sound (.error (.panic message) : Except (Failure ε) α) :=
  fun _ h => by cases h
theorem sound_diverges : Sound (.error .diverges : Except (Failure ε) α) := fun _ h => by cases h

theorem sound_bind {r : Except (Failure ε) α} {f : α → Except (Failure ε) β} (hr : Sound r)
    (hf : ∀ a, Sound (f a)) : Sound (r >>= f) := by
  cases r with
  | ok a => exact hf a
  | error e =>
    rintro e' h
    exact hr e' (by simpa [bind, Except.bind] using h)

theorem sound_map {r : Except (Failure ε) α} (f : α → β) (hr : Sound r) : Sound (r.map f) := by
  cases r with
  | ok a => exact sound_ok (f a)
  | error e =>
    rintro e' h
    exact hr e' (by simpa [Except.map] using h)

theorem sound_mapError_empty (r : Except (Failure Empty) α) :
    Sound (r.mapError (Failure.mapError Empty.elim) : Except (Failure ε) α) := by
  cases r with
  | ok a => exact sound_ok a
  | error e =>
    cases e with
    | error e => exact e.elim
    | panic message => exact sound_panic message
    | diverges => exact sound_diverges

theorem sound_mapM {f : α → Except (Failure ε) β} (h : ∀ a, Sound (f a)) (as : List α) :
    Sound (as.mapM f) := by
  induction as with
  | nil => exact sound_ok []
  | cons a as ih =>
    rw [List.mapM_cons]
    exact sound_bind (h a) fun _ => sound_bind ih fun _ => sound_ok _

end Readings

section Queries

variable {ε : Type} (g : MountedGraph K)

theorem sound_identityFrom (fuel : ℕ) (current : Option ℕ) :
    Sound (g.identityFrom fuel current : Except (Failure ε) _) := by
  induction fuel generalizing current with
  | zero =>
    cases current with
    | none => exact sound_ok _
    | some id => exact sound_diverges
  | succ fuel ih =>
    cases current with
    | none => exact sound_ok _
    | some id =>
      simp only [MountedGraph.identityFrom]
      split
      · exact sound_panic _
      · exact sound_bind (ih _) fun _ => sound_ok _

theorem sound_descendantFrom (ancestor fuel id : ℕ) :
    Sound (g.descendantFrom ancestor fuel id : Except (Failure ε) _) := by
  induction fuel generalizing id with
  | zero => exact sound_diverges
  | succ fuel ih =>
    simp only [MountedGraph.descendantFrom]
    split
    · exact sound_ok _
    split
    · exact ih _
    · exact sound_ok _

theorem sound_ownerFrom (fuel id : ℕ) : Sound (g.ownerFrom fuel id : Except (Failure ε) _) := by
  induction fuel generalizing id with
  | zero => exact sound_diverges
  | succ fuel ih =>
    simp only [MountedGraph.ownerFrom]
    split
    · exact sound_ok _
    split
    · exact sound_ok _
    split
    · exact sound_ok _
    · exact ih _

theorem sound_blockedBy (dialog : ℕ) (ids : List ℕ) : Sound (blockedBy g dialog ids) := by
  induction ids with
  | nil => exact sound_ok _
  | cons id rest ih =>
    exact sound_bind (sound_descendantFrom g dialog _ id) fun _ => sound_bind ih fun _ => sound_ok _

theorem sound_mountedSize (id : ℕ) : Sound (mountedSize g id) := by
  unfold mountedSize
  split
  · exact sound_ok _
  · exact sound_panic _

theorem sound_seedEntry (seed : K × ℕ) : Sound (seedEntry g seed) := by
  unfold seedEntry
  split
  · exact sound_panic _
  · exact sound_ok _
  · exact sound_panic _

variable [DecidableEq K]

theorem sound_childrenOf (id : ℕ) : Sound (g.childrenOf id : Except (Failure ε) _) := by
  unfold MountedGraph.childrenOf
  split
  · exact sound_ok _
  split
  · exact sound_map _ (sound_mapError_empty _)
  · exact sound_ok _

theorem sound_childSegments (id : ℕ) : Sound (g.childSegments id : Except (Failure ε) _) := by
  unfold MountedGraph.childSegments
  split
  · exact sound_ok _
  · exact sound_map _ (sound_childrenOf g id)

theorem sound_locate (id position : ℕ) : Sound (locate g id position) := by
  unfold locate
  split
  · exact sound_panic _
  split
  · exact sound_ok _
  refine sound_bind (sound_mapError_empty _) fun children => ?_
  split
  · exact sound_ok _
  · exact sound_panic _

end Queries

section Commits

theorem neverRefuses_query {α : Type} {f : MountedGraph K → Reading K α} (h : ∀ g, Sound (f g)) :
    NeverRefuses (query f) :=
  neverRefuses_bind neverRefuses_get fun g => neverRefuses_ofExcept (h g)

theorem neverRefuses_alter (message : String) (id : ℕ) (f : MountedNode K → MountedNode K) :
    NeverRefuses (alter message id f) :=
  neverRefuses_bind neverRefuses_get fun _ => neverRefuses_bind (neverRefuses_expect _ _) fun _ =>
    neverRefuses_modify _

theorem neverRefuses_identity (id : ℕ) :
    NeverRefuses (query fun g : MountedGraph K => g.identity id) :=
  neverRefuses_query fun g => sound_identityFrom g _ _

theorem neverRefuses_carry (removed : List ℕ) :
    NeverRefuses (carryInteraction removed : GraphMethod K _) := by
  refine neverRefuses_foldlM (fun carry id => ?_) _ removed
  refine neverRefuses_bind neverRefuses_get fun g => neverRefuses_bind ?_ fun _ =>
    neverRefuses_bind ?_ fun _ => neverRefuses_bind ?_ fun _ =>
    neverRefuses_bind (neverRefuses_modify _) fun _ => neverRefuses_pure _
  · unfold noteSerial
    split
    · exact neverRefuses_pure _
    · exact neverRefuses_bind (neverRefuses_identity id) fun _ => neverRefuses_pure _
  · unfold noteSize
    split
    · exact neverRefuses_pure _
    · exact neverRefuses_bind (neverRefuses_identity id) fun _ => neverRefuses_pure _
  · unfold noteEdges
    split
    · exact neverRefuses_bind (neverRefuses_identity id) fun _ => neverRefuses_pure _
    · exact neverRefuses_pure _

theorem neverRefuses_requestFocus (carry : InteractionCarry) (region : ℕ) :
    NeverRefuses (requestFocus carry region : GraphMethod K _) := by
  refine neverRefuses_bind neverRefuses_get fun g => ?_
  dsimp only
  split
  · exact neverRefuses_bind (neverRefuses_identity region) fun _ => neverRefuses_modify _
  · exact neverRefuses_pure ()

theorem neverRefuses_restoreOne (carry : InteractionCarry) (id : ℕ) :
    NeverRefuses (restoreOne carry id : GraphMethod K _) := by
  refine neverRefuses_bind neverRefuses_get fun g => ?_
  dsimp only
  split
  · exact neverRefuses_pure ()
  · refine neverRefuses_bind (neverRefuses_identity id) fun _ => ?_
    split
    · exact neverRefuses_modify _
    · exact neverRefuses_pure ()
  · split
    · exact neverRefuses_pure ()
    · exact neverRefuses_bind (neverRefuses_identity id) fun _ => neverRefuses_modify _

theorem neverRefuses_restore (staged : List ℕ) (carry : InteractionCarry) :
    NeverRefuses (restoreInteraction staged carry : GraphMethod K _) := by
  refine neverRefuses_bind neverRefuses_get fun _ => neverRefuses_bind (neverRefuses_modify _)
    fun _ => neverRefuses_bind (neverRefuses_forM (neverRefuses_requestFocus carry) _) fun _ => ?_
  split
  · exact neverRefuses_pure ()
  · exact neverRefuses_forM (neverRefuses_restoreOne carry) staged

theorem neverRefuses_finish (previous : Option ℕ) (staged : List ℕ) (carry : InteractionCarry) :
    NeverRefuses (finishInteraction previous staged carry : GraphMethod K _) := by
  refine neverRefuses_bind (neverRefuses_restore staged carry) fun _ =>
    neverRefuses_bind neverRefuses_get fun _ => ?_
  dsimp only
  split
  · split
    · exact neverRefuses_bind neverRefuses_get fun _ => neverRefuses_bind
        (neverRefuses_query fun g => sound_blockedBy g _ _) fun _ => neverRefuses_modify _
    · exact neverRefuses_pure ()
  · exact neverRefuses_pure ()

theorem neverRefuses_retire (message : String) (instances : List ℕ) (id : ℕ) :
    NeverRefuses (retire message instances id : GraphMethod K _) := by
  refine neverRefuses_bind neverRefuses_get fun _ => neverRefuses_bind (neverRefuses_expect _ _)
    fun entry => neverRefuses_bind (neverRefuses_modify _) fun _ => ?_
  split
  · exact neverRefuses_bind (neverRefuses_modify _) fun _ => neverRefuses_pure _
  · exact neverRefuses_bind (neverRefuses_modify _) fun _ => neverRefuses_pure _
  · exact neverRefuses_bind (neverRefuses_modify _) fun _ => neverRefuses_pure _
  · exact neverRefuses_pure _

theorem neverRefuses_resize (oldSize newSize : ℕ) (current : Option ℕ) :
    NeverRefuses (resizeAncestors oldSize newSize current : GraphMethod K _) := by
  refine neverRefuses_bind neverRefuses_get fun g => ?_
  dsimp only
  generalize g.climb = fuel
  induction fuel generalizing current with
  | zero =>
    cases current with
    | none => exact neverRefuses_pure ()
    | some id => exact neverRefuses_diverges
  | succ fuel ih =>
    cases current with
    | none => exact neverRefuses_pure ()
    | some id =>
      exact neverRefuses_bind (neverRefuses_alter _ _ _) fun _ =>
        neverRefuses_bind neverRefuses_get fun _ => ih _

theorem neverRefuses_mountNode (validated : ValidatedFragment K) (node : Node K) :
    NeverRefuses (mountNode validated node) := by
  refine neverRefuses_bind (neverRefuses_bind (neverRefuses_modify _) fun _ => ?_)
    fun _ => neverRefuses_modify _
  split
  · exact neverRefuses_modify _
  · exact neverRefuses_bind (neverRefuses_expect _ _) fun _ => neverRefuses_modify _
  · exact neverRefuses_modify _
  · exact neverRefuses_modify _
  · split
    · exact neverRefuses_modify _
    · exact neverRefuses_pure ()
  · exact neverRefuses_pure ()

variable [DecidableEq K]

theorem neverRefuses_seedNode (node : Node K) : NeverRefuses (seedNode node) := by
  unfold seedNode
  split
  · exact neverRefuses_bind (neverRefuses_query fun g => sound_mapM (sound_seedEntry g) _)
      fun _ => neverRefuses_bind (neverRefuses_expect _ _) fun _ => neverRefuses_alter _ _ _
  · exact neverRefuses_pure ()

theorem neverRefuses_refresh (parent : ℕ) :
    NeverRefuses (refreshChildSegments parent : GraphMethod K _) :=
  neverRefuses_bind (neverRefuses_query fun g => sound_childSegments g parent) fun _ =>
    neverRefuses_forM (fun _ => neverRefuses_alter _ _ _) _

theorem neverRefuses_settle (id : ℕ) : NeverRefuses (settle id : GraphMethod K _) := by
  refine neverRefuses_bind neverRefuses_get fun _ => neverRefuses_bind (neverRefuses_expect _ _)
    fun entry => neverRefuses_bind
      (neverRefuses_query fun g => sound_mapM (sound_mountedSize g) _) fun _ =>
    neverRefuses_bind (neverRefuses_alter _ _ _) fun _ => neverRefuses_bind
      (neverRefuses_forM (fun child => ?_) _) fun _ => neverRefuses_refresh id
  exact neverRefuses_bind (neverRefuses_query fun g => sound_locate g id _) fun _ =>
    neverRefuses_alter _ _ _

theorem neverRefuses_insertNodes (nodes : List (Node K)) (validated : ValidatedFragment K) :
    NeverRefuses (insertNodes nodes validated) :=
  neverRefuses_bind (neverRefuses_forM (neverRefuses_mountNode validated) nodes) fun _ =>
    neverRefuses_bind (neverRefuses_forM neverRefuses_seedNode nodes) fun _ =>
      neverRefuses_forM neverRefuses_settle _

theorem neverRefuses_attachRoot (location : ParentLocation K) (root : ℕ) :
    NeverRefuses (attachRoot location root) := by
  cases location with
  | ordinaryIndex parent index =>
    refine neverRefuses_bind neverRefuses_get fun _ => neverRefuses_bind (neverRefuses_expect _ _)
      fun entry => ?_
    split
    · exact neverRefuses_bind (neverRefuses_panics _) fun _ => neverRefuses_alter _ _ _
    · exact neverRefuses_alter _ _ _
  | keyed container key instanceId =>
    exact neverRefuses_bind neverRefuses_get fun _ => neverRefuses_bind (neverRefuses_expect _ _)
      fun _ => neverRefuses_bind (neverRefuses_expect _ _) fun _ =>
        neverRefuses_bind (neverRefuses_expect _ _) fun _ => neverRefuses_alter _ _ _

theorem neverRefuses_attach (r : Replacement K) (plan : ReplacementPlan K) (oldSize newSize : ℕ) :
    NeverRefuses (attach r plan oldSize newSize) := by
  unfold attach
  split
  · refine neverRefuses_bind (neverRefuses_attachRoot _ _) fun _ => ?_
    split
    · exact neverRefuses_bind (neverRefuses_refresh _) fun _ => neverRefuses_resize _ _ _
    · exact neverRefuses_resize _ _ _
  · exact neverRefuses_modify _

theorem neverRefuses_exchange (r : Replacement K) (plan : ReplacementPlan K) (oldSize : ℕ) :
    NeverRefuses (exchange r plan oldSize) :=
  neverRefuses_bind (neverRefuses_foldlM (neverRefuses_retire _) _ _) fun _ =>
    neverRefuses_bind (neverRefuses_insertNodes _ _) fun _ =>
    neverRefuses_bind (neverRefuses_alter _ _ _) fun _ =>
    neverRefuses_bind (neverRefuses_alter _ _ _) fun _ =>
    neverRefuses_bind (neverRefuses_query fun g => sound_mountedSize g _) fun _ =>
    neverRefuses_bind (neverRefuses_attach _ _ _ _) fun _ => neverRefuses_pure _

/-- No check of a replacement comes after its first write. -/
theorem neverRefuses_commitReplacement (r : Replacement K) (plan : ReplacementPlan K)
    (previous : Option ℕ) : NeverRefuses (commitReplacement r plan previous) :=
  neverRefuses_bind neverRefuses_get fun _ => neverRefuses_bind (neverRefuses_carry _) fun _ =>
    neverRefuses_bind (neverRefuses_exchange _ _ _) fun _ =>
    neverRefuses_bind (neverRefuses_finish _ _ _) fun _ =>
    neverRefuses_bind neverRefuses_get fun _ => neverRefuses_pure _

theorem neverRefuses_mountFragment (container : ℕ) (order : KeyedChildOrder K)
    (fragment : FragmentPlan K) : NeverRefuses (mountFragment container order fragment) :=
  neverRefuses_bind (neverRefuses_insertNodes _ _) fun _ =>
    neverRefuses_bind (neverRefuses_expect _ _) fun _ => neverRefuses_alter _ _ _

theorem neverRefuses_exchangeKeyed (container : ℕ) (order : KeyedChildOrder K)
    (prepared : PreparedFragments K) (oldSize keyedSize : ℕ) :
    NeverRefuses (exchangeKeyed container order prepared oldSize keyedSize) := by
  refine neverRefuses_bind (neverRefuses_foldlM (neverRefuses_retire _) _ _) fun _ =>
    neverRefuses_bind (neverRefuses_forM (neverRefuses_mountFragment _ _) _) fun _ =>
    neverRefuses_bind ?_ fun _ => neverRefuses_bind (neverRefuses_alter _ _ _) fun _ =>
    neverRefuses_pure _
  unfold resizeContainer
  split
  · exact neverRefuses_pure ()
  · exact neverRefuses_bind (neverRefuses_alter _ _ _) fun _ =>
      neverRefuses_bind neverRefuses_get fun _ => neverRefuses_resize _ _ _

theorem neverRefuses_commitKeyed (container newRevision : ℕ) (j : KeyedOrderJournal K)
    (prepared : PreparedFragments K) (previous : Option ℕ) :
    NeverRefuses (commitKeyed container newRevision j prepared previous) :=
  neverRefuses_bind (neverRefuses_query fun g => sound_mountedSize g _) fun _ =>
    neverRefuses_bind (neverRefuses_carry _) fun _ =>
    neverRefuses_bind (neverRefuses_exchangeKeyed _ _ _ _ _) fun _ =>
    neverRefuses_bind (neverRefuses_finish _ _ _) fun _ => neverRefuses_pure _

end Commits

section Refusals

variable [DecidableEq K] {g g' : MountedGraph K} {base : KeyedChildOrder K}

theorem refused_replacement {r : Replacement K} {e : GraphError K}
    (h : (applyReplacement r).run g = .error (.error e) g') : g' = g := by
  rw [applyReplacement, run_bind_ok (EStateM.run_get g)] at h
  cases hplan : planReplacement r g with
  | error failure =>
    rw [run_bind_error (query_error hplan)] at h
    cases h
    rfl
  | ok plan =>
    rw [run_bind_ok (query_ok hplan)] at h
    exact absurd h (neverRefuses_commitReplacement r plan g.dialog g e g')

theorem preserves_order {α : Type} {m : JournalMethod K α} (h : Preserves (Recoverable base) m) :
    Preserves (Recoverable base) (refuseOrder m) := preserves_mapError _ h

theorem preserves_stage (owner : Option ℕ) (progress : KeyedProgress K)
    (operation : KeyedGraphOperation K) :
    Preserves (Recoverable base) (stageOperation g owner progress operation) := by
  cases operation with
  | insert key before root nodes =>
    refine preserves_bind (preserves_ofExcept _) fun _ => preserves_bind (preserves_ofExcept _)
      fun instanceId => preserves_bind (preserves_ofExcept _) fun _ => ?_
    exact preserves_bind (preserves_order (preserves_insert key root instanceId before)) fun _ =>
      preserves_pure _
  | remove key =>
    refine preserves_bind (preserves_order (preserves_child key)) fun _ => ?_
    exact preserves_bind (preserves_order (preserves_remove key)) fun _ => preserves_pure _
  | move key before =>
    exact preserves_bind (preserves_order (preserves_moveBefore key before)) fun _ =>
      preserves_pure _
  | set key root nodes =>
    refine preserves_bind (preserves_order (preserves_child key)) fun _ => preserves_bind
      (preserves_ofExcept _) fun _ => preserves_bind (preserves_ofExcept _) fun _ => ?_
    dsimp only
    split
    · exact preserves_bind (preserves_throw _) fun _ => preserves_bind (preserves_ofExcept _)
        fun _ => preserves_bind (preserves_order (preserves_replace key root)) fun _ =>
          preserves_pure _
    · exact preserves_bind (preserves_ofExcept _) fun _ =>
        preserves_bind (preserves_order (preserves_replace key root)) fun _ => preserves_pure _

theorem preserves_prepare (hashOrder : Enumeration K (Option (KeyedChild K))) (owner : Option ℕ)
    (operations : List (KeyedGraphOperation K)) :
    Preserves (Recoverable base) (prepare hashOrder g owner operations) := by
  refine preserves_bind (preserves_foldlM (preserves_stage owner) _ _) fun _ =>
    preserves_bind preserves_get fun _ => preserves_bind (preserves_ofExcept _) fun _ => ?_
  exact preserves_bind (preserves_ofExcept _) fun _ => preserves_pure _

omit [DecidableEq K] in
/-- Taking an order out of its container and putting it back leaves no trace. -/
theorem putOrder_back {container : ℕ} {entry : MountedNode K}
    (h : g.nodes.get container = some entry) :
    (putOrder container entry.keyedChildren).run (withOrder container entry none g) =
      .ok () g := by
  rw [putOrder_run (FiniteMap.get_set_self _ _ _)]
  congr 1
  obtain ⟨nodes, _, _, _, _, _, _, _, _⟩ := g
  simp only [withOrder]
  congr 1
  ext1 id
  rw [FiniteMap.get_set]
  split
  · subst id
    exact h.symm
  · rw [FiniteMap.get_set_ne _ _ ‹_›]

omit [DecidableEq K] in
theorem keyedContainer_ok {container : ℕ} {entry : MountedNode K}
    (h : keyedContainer container g = .ok entry) :
    g.nodes.get container = some entry ∧
      (entry.keyedChildren = none → entry.node.children = []) := by
  cases hentry : g.nodes.get container with
  | none => simp [keyedContainer, hentry, reject] at h
  | some found =>
    simp only [keyedContainer, hentry] at h
    split at h
    · cases h
    · cases h
      simp_all

theorem refused_operations (hashOrder : Enumeration K (Option (KeyedChild K)))
    {owner : Option ℕ} {operations : List (KeyedGraphOperation K)} {e : Failure (GraphError K)}
    {j : KeyedOrderJournal K}
    (h : (prepare hashOrder g owner operations).run (KeyedOrderJournal.new base) = .error e j) :
    j.rollback hashOrder = base := by
  have recoverable := preserves_prepare (g := g) hashOrder owner operations _ (recoverable_new base)
  rw [h] at recoverable
  exact rollback_restores hashOrder recoverable

theorem refused_keyed (hashOrder : Enumeration K (Option (KeyedChild K)))
    {container baseRevision newRevision : ℕ} {operations : List (KeyedGraphOperation K)}
    {e : GraphError K}
    (h : (applyKeyed hashOrder container baseRevision newRevision operations).run g =
      .error (.error e) g') : g' = g := by
  rw [applyKeyed, run_bind_ok (EStateM.run_get g)] at h
  cases hentry : keyedContainer container g with
  | error failure =>
    rw [run_bind_error (query_error hentry)] at h
    cases h
    rfl
  | ok entry =>
    obtain ⟨mounted, -⟩ := keyedContainer_ok hentry
    have same : (entry.keyedChildren.map fun _ => entry.keyedChildren.getD .empty) =
        entry.keyedChildren := by cases entry.keyedChildren <;> rfl
    rw [run_bind_ok (query_ok hentry)] at h
    dsimp only at h
    rw [run_bind_ok (putOrder_run mounted)] at h
    cases hrevision : checkRevisions (entry.keyedChildren.getD .empty) baseRevision newRevision with
    | error error =>
      simp only [hrevision] at h
      rw [same, run_bind_ok (putOrder_back mounted)] at h
      cases h
      rfl
    | ok u =>
      simp only [hrevision] at h
      cases howner : ((withOrder container entry none g).componentOwner container : Reading K _) with
      | error failure =>
        rw [run_bind_error (query_error howner)] at h
        cases h
        exact absurd howner (sound_ownerFrom _ _ _ e)
      | ok owner =>
        rw [run_bind_ok (query_ok howner), run_bind_ok (EStateM.run_get _)] at h
        cases hrun : (prepare hashOrder (withOrder container entry none g) owner operations).run
            (KeyedOrderJournal.new (entry.keyedChildren.getD .empty)) with
        | ok prepared j =>
          simp only [hrun] at h
          exact absurd h (neverRefuses_commitKeyed _ _ _ _ _ _ _ _)
        | error failure j =>
          have back := refused_operations hashOrder hrun
          cases failure with
          | error error =>
            simp only [hrun, back] at h
            rw [same, run_bind_ok (putOrder_back mounted)] at h
            cases h
            rfl
          | panic message =>
            simp only [hrun] at h
            cases h
          | diverges =>
            simp only [hrun] at h
            cases h

/-- Whatever a patch holds and wherever it fails, a refusal changes nothing. -/
theorem refused_patch_changes_nothing (hashOrder : Enumeration K (Option (KeyedChild K)))
    (patch : Patch K) (g g' : MountedGraph K) (e : GraphError K)
    (refused : (apply hashOrder patch).run g = .error (.error e) g') : g' = g := by
  cases patch with
  | mount root nodes => exact refused_replacement refused
  | noChange => cases refused
  | replace oldRoot root nodes => exact refused_replacement refused
  | replaceRetaining oldRoot root nodes retainedRoots => exact refused_replacement refused
  | keyed container baseRevision newRevision operations =>
    cases hrun : (applyKeyed hashOrder container baseRevision newRevision operations).run g with
    | ok keyed t =>
      rw [apply, run_bind_ok hrun] at refused
      cases refused
    | error failure t =>
      rw [apply, run_bind_error hrun] at refused
      cases refused
      exact refused_keyed hashOrder hrun

def oneItem : Patch ℕ := .mount 1
  [⟨1, .keyedColumn "" 0 [7], [2]⟩, ⟨2, .boundary 5, [3]⟩, ⟨3, .text, []⟩]

def missingLast : Patch ℕ := .keyed 1 0 1 [.move 7 none,
  .insert 8 (some 7) 10 [⟨10, .boundary 9, [11]⟩, ⟨11, .text, []⟩], .remove 4]

theorem refused_last_operation_changes_nothing :
    after ((apply .sorted missingLast).run (after ((apply .sorted oneItem).run .empty))) =
      after ((apply .sorted oneItem).run .empty) :=
  refused_patch_changes_nothing .sorted missingLast _ _ (.keyedOrder (.missing 4))
    (answer_error (by decide +kernel))

end Refusals

end GraphAtomicity
