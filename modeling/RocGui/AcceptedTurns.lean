import RocGui.ComponentRegistries
import RocGui.GraphRuns

/-! Turns of one session: each stages choices of components, tasks and cancellations, and they take
effect together once the graph has accepted the turn's patch. -/
namespace AcceptedTurns

open FiniteMaps Methods KeyedOrder GraphState GraphPatches FragmentTrees GraphForests GraphRuns
open GraphLedgers GraphListings KeyedListings KeyedStaging Transitions ComponentRegistries

/-- A task that has not ended. `slot` is its address. -/
structure LiveTask where
  slot : ℕ
  owner : ℕ
  key : String
  deriving DecidableEq

/-- The tasks and cancellations of a turn, by owner and key. -/
structure StagedTurn where
  jobs : List (ℕ × String)
  cancels : List (ℕ × String)

structure Session (K : Type) where
  graph : MountedGraph K
  components : ComponentRegistry
  staged : StagedTurn
  live : List LiveTask
  nextSlot : ℕ
  /-- What `resolve` has answered so far, the latest first. -/
  answered : List (ComponentLocation × ℕ)

def Session.initial {K : Type} : Session K := ⟨.empty, .initial, ⟨[], []⟩, [], 0, []⟩

section Tasks

def stopWhere (selects : LiveTask → Bool) (live : List LiveTask) : List LiveTask :=
  live.filter fun task => !selects task

def issue (owner : ℕ) (key : String) (live : List LiveTask) (slot : ℕ) : List LiveTask :=
  (if key ≠ "" then stopWhere (fun task => task.owner = owner ∧ task.key = key) live else live) ++
    [⟨slot, owner, key⟩]

def cancel (owner : ℕ) (key : String) (live : List LiveTask) : List LiveTask :=
  if key = "" then live else stopWhere (fun task => task.owner = owner ∧ task.key = key) live

def unmount (removed : List ℕ) (live : List LiveTask) : List LiveTask :=
  if removed = [] then live
  else stopWhere (fun task => task.owner ≠ 0 ∧ task.owner ∈ removed) live

abbrev Tasks := List LiveTask × ℕ

variable {K : Type}

def admits (v : MountedGraph K) (job : ℕ × String) : Bool := job.1 = 0 ∨ (boundaryRoot v job.1).isSome

def issueStaged (v : MountedGraph K) (tasks : Tasks) (job : ℕ × String) : Tasks :=
  if admits v job then (issue job.1 job.2 tasks.1 tasks.2, tasks.2 + 1) else tasks

/-- The tasks' part of `accept_transaction`. -/
def settleTasks (v : MountedGraph K) (a : GraphApply K) (turn : StagedTurn) (tasks : Tasks) : Tasks :=
  let removed := a.removedInstances.filter fun i => boundaryRoot v i = none
  let live := turn.cancels.foldl (fun live staged => cancel staged.1 staged.2 live) (unmount removed tasks.1)
  turn.jobs.foldl (issueStaged v) (live, tasks.2)

end Tasks

section Turns

variable {K : Type}

/-- The calls of a render on the registry, `resolve` apart. -/
inductive RegistryCall where
  | beginRender (owner : ℕ)
  | scopeEnter (tag : ℕ) (label : String) (position : ℕ)
  | scopeExit
  | componentEnter (instanceId : ℕ)
  | componentExit
  | finishRender

def RegistryCall.run : RegistryCall → RegistryMethod Unit
  | .beginRender owner => ComponentRegistries.beginRender owner
  | .scopeEnter tag label position => ComponentRegistries.scopeEnter tag label position
  | .scopeExit => ComponentRegistries.scopeExit
  | .componentEnter instanceId => ComponentRegistries.componentEnter instanceId
  | .componentExit => ComponentRegistries.componentExit
  | .finishRender => ComponentRegistries.finishRender

inductive TurnEvent (K : Type) where
  | call (call : RegistryCall)
  | resolve (keyKind : ℕ) (keyDigest : List UInt8)
  | enqueueTask (owner : ℕ) (key : String)
  | cancelTask (owner : ℕ) (key : String)
  | accepted (patch : Patch K)
  | rejected
  /-- A task's completion was delivered. -/
  | delivered (slot : ℕ)

def asked (r : ComponentRegistry) (keyKind : ℕ) (keyDigest : List UInt8) : Option ComponentLocation :=
  match r.scopes.head?, componentKey r.nextInstance keyKind keyDigest with
  | some scope, .ok key => some ⟨scope.identity, key⟩
  | _, _ => none

def resolving (s : Session K) (keyKind : ℕ) (keyDigest : List UInt8) : Session K :=
  match (resolve keyKind keyDigest).run s.components with
  | .ok (instanceId, _) r => { s with
      components := r
      answered := ((asked s.components keyKind keyDigest).map (·, instanceId)).toList ++ s.answered }
  | .error _ r => { s with components := r }

theorem resolving_graph (s : Session K) (keyKind : ℕ) (keyDigest : List UInt8) :
    (resolving s keyKind keyDigest).graph = s.graph := by
  unfold resolving
  split <;> rfl

def Session.accept (s : Session K) (v : MountedGraph K) (a : GraphApply K) (components : ComponentRegistry) :
    Session K where
  graph := v
  components
  staged := ⟨[], []⟩
  live := (settleTasks v a s.staged (s.live, s.nextSlot)).1
  nextSlot := (settleTasks v a s.staged (s.live, s.nextSlot)).2
  answered := s.answered

theorem accept_graph (s : Session K) (v : MountedGraph K) (a : GraphApply K)
    (components : ComponentRegistry) : (s.accept v a components).graph = v := rfl

theorem accept_answered (s : Session K) (v : MountedGraph K) (a : GraphApply K)
    (components : ComponentRegistry) : (s.accept v a components).answered = s.answered := rfl

variable [DecidableEq K]

/-- A registry call may refuse; what it wrote stays. -/
def turns (K : Type) [DecidableEq K] : System (Session K) (TurnEvent K) where
  initial := .initial
  Step s event t := match event with
    | .call call => t = { s with components := after (call.run.run s.components) }
    | .resolve keyKind keyDigest => t = resolving s keyKind keyDigest
    | .enqueueTask owner key =>
      t = { s with staged := { s.staged with jobs := s.staged.jobs ++ [(owner, key)] } }
    | .cancelTask owner key =>
      t = { s with staged := { s.staged with cancels := s.staged.cancels ++ [(owner, key)] } }
    | .accepted patch => ∃ hashOrder order a v components,
      (apply hashOrder patch).run s.graph = .ok a v ∧
        (commit order v a).run s.components = .ok ⟨⟩ components ∧ t = s.accept v a components
    | .rejected => t = { s with components := abort s.components, staged := ⟨[], []⟩ }
    | .delivered slot => t = { s with live := s.live.filter fun task => task.slot ≠ slot }

end Turns

section TaskLists

variable {K : Type} {v : MountedGraph K} {a : GraphApply K} {live : List LiveTask} {t : LiveTask}

theorem mem_stopped {selects : LiveTask → Bool} :
    t ∈ stopWhere selects live ↔ t ∈ live ∧ selects t = false := by
  rw [stopWhere, List.mem_filter, Bool.not_eq_true']

theorem mem_unmount {removed : List ℕ} :
    t ∈ unmount removed live ↔ t ∈ live ∧ (t.owner = 0 ∨ t.owner ∉ removed) := by
  unfold unmount
  split
  · rename_i hempty
    simp [hempty]
  · rw [mem_stopped, decide_eq_false_iff_not, not_and_or, not_not]

theorem mem_cancel {owner : ℕ} {key : String} :
    t ∈ cancel owner key live ↔ t ∈ live ∧ ¬(t.key ≠ "" ∧ (t.owner, t.key) = (owner, key)) := by
  unfold cancel
  split
  · rename_i hempty
    refine (and_iff_left ?_).symm
    rintro ⟨hkey, heq⟩
    exact hkey ((Prod.mk.inj heq).2.trans hempty)
  · rename_i hkey
    rw [mem_stopped, decide_eq_false_iff_not, Prod.mk.injEq]
    refine and_congr_right fun _ => not_congr ⟨fun h => ⟨?_, h⟩, And.right⟩
    rw [h.2]
    exact hkey

theorem mem_cancels {cancels : List (ℕ × String)} :
    t ∈ cancels.foldl (fun live staged => cancel staged.1 staged.2 live) live ↔
      t ∈ live ∧ ¬(t.key ≠ "" ∧ (t.owner, t.key) ∈ cancels) := by
  induction cancels generalizing live with
  | nil => simp
  | cons staged rest ih =>
    rw [List.foldl_cons, ih, mem_cancel, List.mem_cons, and_assoc, ← not_or, ← and_or_left]

theorem mem_issue {owner slot : ℕ} {key : String} : t ∈ issue owner key live slot ↔
    t ∈ live ∧ ¬(t.key ≠ "" ∧ (t.owner, t.key) = (owner, key)) ∨ t = ⟨slot, owner, key⟩ := by
  have superseded : (t ∈ if key ≠ "" then stopWhere (fun task => task.owner = owner ∧ task.key = key) live
      else live) ↔ t ∈ cancel owner key live := by
    unfold cancel
    by_cases hkey : key = "" <;> simp [hkey]
  rw [issue, List.mem_append, superseded, mem_cancel, List.mem_singleton]

/-- A task that is issued, unless a later one of its turn has its owner and key. -/
def IssuedAt (jobs : List (ℕ × String)) (slot : ℕ) (t : LiveTask) : Prop :=
  ∃ n, jobs[n]? = some (t.owner, t.key) ∧ t.slot = slot + n ∧
    ¬(t.key ≠ "" ∧ (t.owner, t.key) ∈ jobs.drop (n + 1))

theorem issued_cons {job : ℕ × String} {rest : List (ℕ × String)} {slot : ℕ} :
    IssuedAt (job :: rest) slot t ↔
      t = ⟨slot, job.1, job.2⟩ ∧ ¬(t.key ≠ "" ∧ (t.owner, t.key) ∈ rest) ∨ IssuedAt rest (slot + 1) t := by
  constructor
  · rintro ⟨n, hjob, hslot, hlast⟩
    cases n with
    | zero =>
      rw [List.getElem?_cons_zero, Option.some.injEq] at hjob
      refine .inl ⟨?_, hlast⟩
      rw [hjob]
      exact congrArg (LiveTask.mk · t.owner t.key) hslot
    | succ n => exact .inr ⟨n, by simpa using hjob, by omega, hlast⟩
  · rintro (⟨rfl, hlast⟩ | ⟨n, hjob, hslot, hlast⟩)
    · exact ⟨0, rfl, rfl, hlast⟩
    · exact ⟨n + 1, by simpa using hjob, by omega, hlast⟩

theorem mem_issued {jobs : List (ℕ × String)} {slot : ℕ} :
    t ∈ (jobs.foldl (fun tasks job => (issue job.1 job.2 tasks.1 tasks.2, tasks.2 + 1)) (live, slot)).1 ↔
      t ∈ live ∧ ¬(t.key ≠ "" ∧ (t.owner, t.key) ∈ jobs) ∨ IssuedAt jobs slot t := by
  induction jobs generalizing live slot with
  | nil => simp [IssuedAt]
  | cons job rest ih =>
    rw [List.foldl_cons, ih, mem_issue, issued_cons, List.mem_cons, or_and_right, or_assoc, and_assoc,
      ← not_or, ← and_or_left]

theorem issue_admitted (jobs : List (ℕ × String)) (tasks : Tasks) :
    jobs.foldl (issueStaged v) tasks = (jobs.filter (admits v)).foldl
      (fun tasks job => (issue job.1 job.2 tasks.1 tasks.2, tasks.2 + 1)) tasks := by
  rw [List.foldl_filter]
  rfl

theorem mem_settled {turn : StagedTurn} {slot : ℕ} : t ∈ (settleTasks v a turn (live, slot)).1 ↔
    t ∈ live ∧ (t.owner = 0 ∨ t.owner ∉ a.removedInstances ∨ (boundaryRoot v t.owner).isSome) ∧
        ¬(t.key ≠ "" ∧ (t.owner, t.key) ∈ turn.cancels) ∧
        ¬(t.key ≠ "" ∧ (t.owner, t.key) ∈ turn.jobs.filter (admits v)) ∨
      IssuedAt (turn.jobs.filter (admits v)) slot t := by
  have stays : (t.owner = 0 ∨ t.owner ∉ a.removedInstances.filter fun i => boundaryRoot v i = none) ↔
      t.owner = 0 ∨ t.owner ∉ a.removedInstances ∨ (boundaryRoot v t.owner).isSome := by
    rw [List.mem_filter, decide_eq_true_eq, not_and_or, Option.isSome_iff_ne_none]
  rw [settleTasks, issue_admitted, mem_issued, mem_cancels, mem_unmount, stays, and_assoc, and_assoc]

structure Slotted (tasks : Tasks) : Prop where
  distinct : (tasks.1.map (·.slot)).Nodup
  earlier : ∀ t ∈ tasks.1, t.slot < tasks.2

theorem slotted_kept {tasks : Tasks} {kept : List LiveTask} (s : Slotted tasks)
    (sub : kept.Sublist tasks.1) : Slotted (kept, tasks.2) :=
  ⟨s.distinct.sublist (sub.map _), fun t ht => s.earlier t (sub.subset ht)⟩

theorem stopped_sublist (selects : LiveTask → Bool) : (stopWhere selects live).Sublist live :=
  List.filter_sublist

theorem cancel_sublist (owner : ℕ) (key : String) : (cancel owner key live).Sublist live := by
  unfold cancel
  split
  · exact List.Sublist.refl _
  · exact stopped_sublist _

theorem cancels_sublist (cancels : List (ℕ × String)) :
    (cancels.foldl (fun live staged => cancel staged.1 staged.2 live) live).Sublist live := by
  induction cancels generalizing live with
  | nil => exact List.Sublist.refl _
  | cons staged rest ih => exact ih.trans (cancel_sublist _ _)

theorem unmount_sublist (removed : List ℕ) : (unmount removed live).Sublist live := by
  unfold unmount
  split
  · exact List.Sublist.refl _
  · exact stopped_sublist _

theorem slotted_issue {owner slot : ℕ} {key : String} (s : Slotted (live, slot)) :
    Slotted (issue owner key live slot, slot + 1) := by
  have before : Slotted ((if key ≠ "" then stopWhere (fun task => task.owner = owner ∧ task.key = key) live
      else live), slot) := by
    split
    · exact slotted_kept s (stopped_sublist _)
    · exact s
  constructor
  · rw [issue, List.map_append, List.map_singleton, List.nodup_append]
    refine ⟨before.distinct, List.nodup_singleton _, fun x hx y hy => ?_⟩
    obtain ⟨t, ht, rfl⟩ := List.mem_map.mp hx
    rw [List.mem_singleton.mp hy]
    exact (before.earlier t ht).ne
  · intro t ht
    rcases List.mem_append.mp ht with ht | ht
    · exact (before.earlier t ht).trans (Nat.lt_succ_self _)
    · rw [List.mem_singleton.mp ht]
      exact Nat.lt_succ_self _

theorem slotted_issued {jobs : List (ℕ × String)} {tasks : Tasks} (s : Slotted tasks) :
    Slotted (jobs.foldl (issueStaged v) tasks) := by
  induction jobs generalizing tasks with
  | nil => exact s
  | cons job rest ih =>
    refine ih ?_
    unfold issueStaged
    split
    · exact slotted_issue s
    · exact s

theorem slotted_settled {turn : StagedTurn} {slot : ℕ} (s : Slotted (live, slot)) :
    Slotted (settleTasks v a turn (live, slot)) :=
  slotted_issued (slotted_kept s ((cancels_sublist turn.cancels).trans (unmount_sublist _)))

end TaskLists

section Handing

variable {K : Type} [DecidableEq K] {g v : MountedGraph K} {a : GraphApply K}

theorem handover (h : Shape g) (idx : Indexed g)
    {hashOrder : Enumeration K (Option (KeyedChild K))} {patch : Patch K}
    (hrun : (apply hashOrder patch).run g = .ok a v) : Handover g v a := by
  obtain ⟨idx', nodes, t⟩ := step_turnover h idx hrun
  have exact := exact_indices idx
  have exact' := exact_indices idx'
  have staged_root {i : ℕ} (hi : i ∈ a.stagedInstances) : ∃ n ∈ nodes, boundaryRoot v i = some n.id := by
    rw [t.staged, mem_instancesOf] at hi
    obtain ⟨n, hn, hk⟩ := hi
    exact ⟨n, hn, (exact'.boundaries i n.id).mpr (by rw [t.turned.fresh n hn, hk])⟩
  have unused {x : ℕ} {k : NodeKind K} (hk : kindAt g x = some k) : x ∉ FragmentTrees.ids nodes := by
    intro hx
    have hlt := t.unused x hx
    exact absurd (h.issued (mounted_iff.mp (mounted_of_kind hk))) hlt.not_ge
  constructor
  · intro i x hx hstays
    have hk := (exact.boundaries i x).mp hx
    have hkept : x ∉ a.removedIds := fun hgone => hstays ((t.ended i).mpr ⟨x, hgone, hk⟩)
    exact (exact'.boundaries i x).mpr ((t.turned.kept x hkept (unused hk)).trans hk)
  · intro i hi
    obtain ⟨n, -, hroot⟩ := staged_root hi
    exact Option.ne_none_iff_exists'.mpr ⟨n.id, hroot⟩
  · intro i hi hstaged
    obtain ⟨x, hgone, hk⟩ := (t.ended i).mp hi
    rw [Option.eq_none_iff_forall_ne_some]
    intro y hy
    have hy' := (exact'.boundaries i y).mp hy
    by_cases hid : y ∈ FragmentTrees.ids nodes
    · obtain ⟨n, hn, rfl⟩ := List.mem_map.mp hid
      rw [t.turned.fresh n hn] at hy'
      exact hstaged (by rw [t.staged, mem_instancesOf]; exact ⟨n, hn, Option.some.inj hy'⟩)
    · by_cases hr : y ∈ a.removedIds
      · rw [t.turned.gone y hr hid] at hy'
        cases hy'
      · rw [t.turned.kept y hr hid] at hy'
        have hsame := ((exact.boundaries i x).mpr hk).symm.trans ((exact.boundaries i y).mpr hy')
        exact hr (Option.some.inj hsame ▸ hgone)

end Handing

section Runs

variable {K : Type} [DecidableEq K] {s t : Session K}

structure Mirrored (s : Session K) : Prop where
  shape : Shape s.graph
  indexed : Indexed s.graph
  consistent : Consistent s.components
  mirrors : Mirrors s.components s.graph

/-- What was answered is never answered for another location, and what the tables hold was
answered. -/
structure Remembered (s : Session K) : Prop where
  earlier : ∀ answer ∈ s.answered, answer.2 < s.components.nextInstance
  once : ∀ answer ∈ s.answered, ∀ answer' ∈ s.answered, answer.2 = answer'.2 → answer.1 = answer'.1
  held : ∀ location i root, s.components.live.get location = some ⟨i, root⟩ ∨
    s.components.pending.get location = some ⟨i, root⟩ → (location, i) ∈ s.answered

/-- Every live task is owned by the application or by a mounted component, and no two have the
same owner and key. -/
structure Tasked (s : Session K) : Prop where
  slotted : Slotted (s.live, s.nextSlot)
  owned : ∀ t ∈ s.live, t.owner = 0 ∨ (boundaryRoot s.graph t.owner).isSome
  single : ∀ t ∈ s.live, ∀ t' ∈ s.live, t.key ≠ "" → t.owner = t'.owner → t.key = t'.key → t = t'

structure Settled (s : Session K) : Prop extends Mirrored s, Remembered s, Tasked s

theorem settled_initial : Settled (.initial : Session K) := by
  refine ⟨⟨shape_empty, indexed_empty, consistent_initial, ?_⟩, ⟨?_, ?_, ?_⟩, ⟨⟨?_, ?_⟩, ?_, ?_⟩⟩
  · intro location mount h
    cases h
  · exact fun answer h => absurd h List.not_mem_nil
  · exact fun answer h => absurd h List.not_mem_nil
  · rintro location i root (h | h) <;> cases h
  · exact List.nodup_nil
  · exact fun task h => absurd h List.not_mem_nil
  · exact fun task h => absurd h List.not_mem_nil
  · exact fun task h => absurd h List.not_mem_nil

structure Untouched (r r' : ComponentRegistry) : Prop where
  live : r'.live = r.live
  instances : r'.instances = r.instances
  pending : r'.pending = r.pending
  next : r'.nextInstance = r.nextInstance

theorem preserves_call {P : ComponentRegistry → Prop} (unscoped : ∀ (r : ComponentRegistry)
    (scopes : List ComponentScope) (rendering : Bool), P r →
      P { r with scopes := scopes, rendering := rendering }) (call : RegistryCall) :
    Preserves P call.run := by
  cases call with
  | beginRender owner => exact preserves_begin unscoped owner
  | scopeEnter tag label position => exact preserves_enter unscoped tag label position
  | scopeExit => exact preserves_exit unscoped .native
  | componentEnter instanceId => exact preserves_component_enter unscoped instanceId
  | componentExit => exact preserves_exit unscoped .component
  | finishRender => exact preserves_finish unscoped

theorem call_untouched (call : RegistryCall) (r : ComponentRegistry) :
    Untouched r (after (call.run.run r)) :=
  preserves_call (fun _ _ _ h => ⟨h.live, h.instances, h.pending, h.next⟩) call r ⟨rfl, rfl, rfl, rfl⟩

theorem settled_call (h : Settled s) (call : RegistryCall) :
    Settled { s with components := after (call.run.run s.components) } := by
  obtain ⟨live, -, pending, next⟩ := call_untouched call s.components
  have consistent : Consistent (after (call.run.run s.components)) :=
    @preserves_call Consistent (fun _ scopes rendering c => consistent_scopes c scopes rendering) call
      s.components h.consistent
  refine ⟨⟨h.shape, h.indexed, consistent, ?_⟩, ⟨?_, h.once, ?_⟩, ⟨h.slotted, h.owned, h.single⟩⟩
  · intro location mount hm
    rw [live] at hm
    exact h.mirrors location mount hm
  · dsimp only
    rw [next]
    exact h.earlier
  · dsimp only
    rw [live, pending]
    exact h.held

theorem asked_eq {r : ComponentRegistry} {keyKind : ℕ} {keyDigest : List UInt8} {scope : ComponentScope}
    {key : ComponentKey} (hs : r.scopes.head? = some scope)
    (hk : componentKey r.nextInstance keyKind keyDigest = .ok key) :
    asked r keyKind keyDigest = some ⟨scope.identity, key⟩ := by
  rw [asked, hs, hk]

theorem settled_resolve (h : Settled s) (keyKind : ℕ) (keyDigest : List UInt8) :
    Settled (resolving s keyKind keyDigest) := by
  have consistent := preserves_resolve keyKind keyDigest s.components h.consistent
  rcases resolve_cases s.components keyKind keyDigest with ⟨e, seen, -, hrun⟩ |
    ⟨scope, key, mount, r, hs, hk, hrun, resolved⟩
  · rw [resolving, hrun]
    rw [hrun] at consistent
    exact ⟨⟨h.shape, h.indexed, consistent, h.mirrors⟩, ⟨h.earlier, h.once, h.held⟩,
      ⟨h.slotted, h.owned, h.single⟩⟩
  · rw [resolving, hrun, asked_eq hs hk]
    rw [hrun] at consistent
    refine ⟨⟨h.shape, h.indexed, consistent, ?_⟩, ?_, ⟨h.slotted, h.owned, h.single⟩⟩
    · intro location m hm
      change r.live.get location = some m at hm
      rw [resolved.live] at hm
      exact h.mirrors location m hm
    have le : s.components.nextInstance ≤ r.nextInstance := by
      rcases resolved.mounted with ⟨-, hnext⟩ | ⟨-, -, hnext⟩ <;> omega
    have noted : r.pending.get ⟨scope.identity, key⟩ = some mount := by
      rw [resolved.pending]
      exact FiniteMap.get_set_self ..
    -- an instance that was answered before was answered for this location
    have before (answer : ComponentLocation × ℕ) (hmem : answer ∈ s.answered)
        (heq : answer.2 = mount.instanceId) : answer.1 = ⟨scope.identity, key⟩ := by
      rcases resolved.mounted with ⟨hlive, -⟩ | ⟨-, rfl, -⟩
      · exact h.once answer hmem _ (h.held _ _ mount.root (.inl hlive)) heq
      · exact absurd (h.earlier answer hmem) (by rw [heq]; exact lt_irrefl _)
    constructor
    · intro answer hmem
      rcases List.mem_cons.mp hmem with rfl | hmem
      · exact (consistent.pending _ mount noted).1.earlier
      · exact (h.earlier answer hmem).trans_le le
    · intro answer hmem answer' hmem' heq
      rcases List.mem_cons.mp hmem with rfl | hmem
      · rcases List.mem_cons.mp hmem' with rfl | hmem'
        · rfl
        · exact (before answer' hmem' heq.symm).symm
      · rcases List.mem_cons.mp hmem' with rfl | hmem'
        · exact before answer hmem heq
        · exact h.once answer hmem answer' hmem' heq
    · intro location i root hm
      change r.live.get location = some ⟨i, root⟩ ∨ r.pending.get location = some ⟨i, root⟩ at hm
      rw [resolved.live, resolved.pending, FiniteMap.get_set] at hm
      rcases hm with hm | hm
      · exact List.mem_cons_of_mem _ (h.held location i root (.inl hm))
      · split at hm
        · rename_i heq
          obtain rfl := Option.some.inj hm
          rw [heq]
          exact List.mem_cons_self
        · exact List.mem_cons_of_mem _ (h.held location i root (.inr hm))

omit [DecidableEq K] in
theorem single_settled {v : MountedGraph K} {a : GraphApply K} {turn : StagedTurn} {live : List LiveTask}
    {slot : ℕ}
    (single : ∀ t ∈ live, ∀ t' ∈ live, t.key ≠ "" → t.owner = t'.owner → t.key = t'.key → t = t') :
    ∀ t ∈ (settleTasks v a turn (live, slot)).1, ∀ t' ∈ (settleTasks v a turn (live, slot)).1,
      t.key ≠ "" → t.owner = t'.owner → t.key = t'.key → t = t' := by
  intro t ht t' ht' hkey howner hsame
  rw [mem_settled] at ht ht'
  have pair : (t'.owner, t'.key) = (t.owner, t.key) := by rw [howner, hsame]
  have admitted {task : LiveTask} (h : IssuedAt (turn.jobs.filter (admits v)) slot task) :
      (task.owner, task.key) ∈ turn.jobs.filter (admits v) := by
    obtain ⟨n, hjob, -⟩ := h
    exact List.mem_of_getElem? hjob
  have later {n m : ℕ} (hlt : n < m) (hm : (turn.jobs.filter (admits v))[m]? = some (t.owner, t.key)) :
      (t.owner, t.key) ∈ (turn.jobs.filter (admits v)).drop (n + 1) := by
    refine List.mem_of_getElem? (i := m - (n + 1)) ?_
    rw [List.getElem?_drop, show n + 1 + (m - (n + 1)) = m by omega]
    exact hm
  rcases ht with ⟨hlive, -, -, hkept⟩ | hissued
  · rcases ht' with ⟨hlive', -⟩ | hissued'
    · exact single t hlive t' hlive' hkey howner hsame
    · exact absurd ⟨hkey, pair ▸ admitted hissued'⟩ hkept
  · rcases ht' with ⟨-, -, -, hkept⟩ | hissued'
    · exact absurd ⟨hsame ▸ hkey, pair ▸ admitted hissued⟩ hkept
    · obtain ⟨n, hn, hslot, hlast⟩ := hissued
      obtain ⟨m, hm, hslot', hlast'⟩ := hissued'
      rw [pair] at hm hlast'
      have heq : n = m := by
        rcases lt_trichotomy n m with hlt | heq | hlt
        · exact absurd ⟨hkey, later hlt hm⟩ hlast
        · exact heq
        · exact absurd ⟨hsame ▸ hkey, later hlt hn⟩ hlast'
      obtain ⟨own, owner, key⟩ := t
      obtain ⟨own', owner', key'⟩ := t'
      simp only at hslot hslot' howner hsame
      rw [howner, hsame, hslot, hslot', heq]

theorem settled_accept {hashOrder : Enumeration K (Option (KeyedChild K))}
    {order : Enumeration ComponentLocation ComponentMount} {patch : Patch K} {v : MountedGraph K}
    {a : GraphApply K} {components : ComponentRegistry} (h : Settled s)
    (hrun : (apply hashOrder patch).run s.graph = .ok a v)
    (hcommit : (commit order v a).run s.components = .ok ⟨⟩ components) :
    Settled (s.accept v a components) := by
  have hand := handover h.shape h.indexed hrun
  obtain ⟨r, hr, c⟩ := commit_ok order h.consistent h.mirrors hand
  obtain ⟨-, rfl⟩ := EStateM.Result.ok.inj (hr.symm.trans hcommit)
  refine ⟨⟨step_shape h.shape ⟨hashOrder, a, hrun⟩, (step_turnover h.shape h.indexed hrun).1,
    c.consistent, c.mirrors⟩, ⟨?_, h.once, ?_⟩, ⟨slotted_settled h.slotted, ?_, single_settled h.single⟩⟩
  · intro answer hmem
    change answer.2 < r.nextInstance
    rw [c.next]
    exact h.earlier answer hmem
  · intro location i root hm
    change r.live.get location = some ⟨i, root⟩ ∨ r.pending.get location = some ⟨i, root⟩ at hm
    rw [c.idle.1, FiniteMap.get_empty, or_iff_left (by simp)] at hm
    rcases c.located i location ((c.consistent.paired i location).mpr ⟨root, hm⟩) with hi | ⟨root', hp⟩
    · obtain ⟨root', hl⟩ := (h.consistent.paired i location).mp hi
      exact h.held location i root' (.inl hl)
    · exact h.held location i root' (.inr hp)
  · intro t ht
    rcases mem_settled.mp ht with ⟨hlive, howner, -⟩ | ⟨n, hjob, -⟩
    · rcases howner with hzero | hstays | hmounted
      · exact .inl hzero
      · refine (h.owned t hlive).imp_right fun hbefore => ?_
        obtain ⟨x, hx⟩ := Option.isSome_iff_exists.mp hbefore
        exact Option.isSome_of_eq_some (hand.kept _ x hx hstays)
      · exact .inr hmounted
    · have hadmits := (List.mem_filter.mp (List.mem_of_getElem? hjob)).2
      rw [admits, decide_eq_true_eq] at hadmits
      exact hadmits

theorem settled_abort (h : Settled s) :
    Settled { s with components := abort s.components, staged := ⟨[], []⟩ } := by
  refine ⟨⟨h.shape, h.indexed, consistent_abort h.consistent, h.mirrors⟩, ⟨h.earlier, h.once, ?_⟩,
    ⟨h.slotted, h.owned, h.single⟩⟩
  rintro location i root (hm | hm)
  · exact h.held location i root (.inl hm)
  · cases hm

theorem settled_delivered (h : Settled s) (slot : ℕ) :
    Settled { s with live := s.live.filter fun task => task.slot ≠ slot } :=
  ⟨⟨h.shape, h.indexed, h.consistent, h.mirrors⟩, ⟨h.earlier, h.once, h.held⟩,
    ⟨slotted_kept h.slotted List.filter_sublist, fun t ht => h.owned t (List.mem_of_mem_filter ht),
      fun t ht t' ht' => h.single t (List.mem_of_mem_filter ht) t' (List.mem_of_mem_filter ht')⟩⟩

theorem step_settled {event : TurnEvent K} (h : Settled s) (step : (turns K).Step s event t) :
    Settled t := by
  cases event with
  | call call =>
    obtain rfl : t = _ := step
    exact settled_call h call
  | resolve keyKind keyDigest =>
    obtain rfl : t = _ := step
    exact settled_resolve h keyKind keyDigest
  | enqueueTask owner key =>
    obtain rfl : t = _ := step
    exact ⟨⟨h.shape, h.indexed, h.consistent, h.mirrors⟩, ⟨h.earlier, h.once, h.held⟩,
      ⟨h.slotted, h.owned, h.single⟩⟩
  | cancelTask owner key =>
    obtain rfl : t = _ := step
    exact ⟨⟨h.shape, h.indexed, h.consistent, h.mirrors⟩, ⟨h.earlier, h.once, h.held⟩,
      ⟨h.slotted, h.owned, h.single⟩⟩
  | accepted patch =>
    obtain ⟨hashOrder, order, a, v, components, hrun, hcommit, rfl⟩ := step
    exact settled_accept h hrun hcommit
  | rejected =>
    obtain rfl : t = _ := step
    exact settled_abort h
  | delivered slot =>
    obtain rfl : t = _ := step
    exact settled_delivered h slot

theorem reached_settled (h : Reachable (turns K) s) : Settled s :=
  reachable_invariant settled_initial (fun _ _ _ h step => step_settled h step) h

/-- When the graph has accepted a patch, so does the registry, whatever came before. -/
theorem commit_follows (h : Reachable (turns K) s) {hashOrder : Enumeration K (Option (KeyedChild K))}
    {patch : Patch K} {a : GraphApply K} {v : MountedGraph K}
    (hrun : (apply hashOrder patch).run s.graph = .ok a v)
    (order : Enumeration ComponentLocation ComponentMount) :
    ∃ components, (commit order v a).run s.components = .ok ⟨⟩ components ∧
      Committed s.components components v ∧
      (turns K).Step s (.accepted patch) (s.accept v a components) := by
  have settled := reached_settled h
  obtain ⟨components, hcommit, committed⟩ :=
    commit_ok order settled.consistent settled.mirrors (handover settled.shape settled.indexed hrun)
  exact ⟨components, hcommit, committed, hashOrder, order, a, v, components, hrun, hcommit, rfl⟩

/-- An answer of `resolve` is the mounted component of its location, or an instance that was
never answered before. No instance is answered for two locations. -/
theorem resolve_answers (h : Reachable (turns K) s) {keyKind : ℕ} {keyDigest : List UInt8}
    {i root : ℕ} {r : ComponentRegistry}
    (hrun : (resolve keyKind keyDigest).run s.components = .ok (i, root) r) :
    ∃ location, asked s.components keyKind keyDigest = some location ∧ location ∉ s.components.seen ∧
      ((location, i) ∈ s.answered ∧ boundaryRoot s.graph i = some root ∨
        (∀ answer ∈ s.answered, answer.2 < i) ∧ root = 0) ∧
      ∀ answer ∈ s.answered, answer.2 = i → answer.1 = location := by
  have settled := reached_settled h
  rcases resolve_cases s.components keyKind keyDigest with ⟨e, seen, -, hfail⟩ |
    ⟨scope, key, mount, r', hs, hk, hanswer, resolved⟩
  · rw [hfail] at hrun
    cases hrun
  · obtain ⟨heq, rfl⟩ := EStateM.Result.ok.inj (hanswer.symm.trans hrun)
    obtain ⟨rfl, rfl⟩ := Prod.mk.inj heq
    refine ⟨_, asked_eq hs hk, resolved.unseen, ?_⟩
    rcases resolved.mounted with ⟨hlive, -⟩ | ⟨-, rfl, -⟩
    · have held := settled.held _ _ mount.root (.inl hlive)
      exact ⟨.inl ⟨held, settled.mirrors _ mount hlive⟩,
        fun answer hmem heq => settled.once answer hmem _ held heq⟩
    · exact ⟨.inr ⟨settled.earlier, rfl⟩,
        fun answer hmem heq => absurd (settled.earlier answer hmem) heq.not_lt⟩

theorem step_located {event : TurnEvent K} (h : Settled s) (step : (turns K).Step s event t) {i : ℕ}
    {location : ComponentLocation} (hi : s.components.instances.get i = some location)
    (mounted : (boundaryRoot t.graph i).isSome) : t.components.instances.get i = some location := by
  cases event with
  | call call =>
    obtain rfl : t = _ := step
    exact (call_untouched call s.components).instances ▸ hi
  | resolve keyKind keyDigest =>
    obtain rfl : t = _ := step
    rcases resolve_cases s.components keyKind keyDigest with ⟨e, seen, -, hrun⟩ |
      ⟨scope, key, mount, r, -, -, hrun, resolved⟩
    · rw [resolving, hrun]
      exact hi
    · rw [resolving, hrun]
      exact resolved.instances ▸ hi
  | accepted patch =>
    obtain ⟨hashOrder, order, a, v, components, hrun, hcommit, rfl⟩ := step
    obtain ⟨r, hr, c⟩ := commit_ok order h.consistent h.mirrors (handover h.shape h.indexed hrun)
    obtain ⟨-, rfl⟩ := EStateM.Result.ok.inj (hr.symm.trans hcommit)
    have registered := (c.registered i).mpr ⟨mounted, .inl (Option.isSome_of_eq_some hi)⟩
    obtain ⟨location', hi'⟩ := Option.isSome_iff_exists.mp registered
    rcases c.located i location' hi' with hbefore | ⟨root', hp⟩
    · exact hi'.trans (hbefore.symm.trans hi)
    · -- it was chosen for a location it was answered for, and there is one only
      obtain ⟨root, hl⟩ := (h.consistent.paired i location).mp hi
      have heq := h.once _ (h.held location i root (.inl hl)) _ (h.held location' i root' (.inr hp)) rfl
      exact hi'.trans (congrArg some heq.symm)
  | enqueueTask | cancelTask | rejected | delivered =>
    obtain rfl : t = _ := step
    exact hi

/-- The runs in which an instance is mounted whenever something happens. -/
def keeping (i : ℕ) : System (Session K) (TurnEvent K) :=
  (turns K).restrict fun s _ => (boundaryRoot s.graph i).isSome

/-- However long it stays mounted, a component keeps its location, and its location keeps it. -/
theorem identity_kept (h : Reachable (turns K) s) {i : ℕ} {location : ComponentLocation}
    (hi : s.components.instances.get i = some location) {events : List (TurnEvent K)}
    (run : Execution (keeping i) s events t) (mounted : (boundaryRoot t.graph i).isSome) :
    t.components.instances.get i = some location ∧
      ∃ root, t.components.live.get location = some ⟨i, root⟩ ∧ boundaryRoot t.graph i = some root := by
  have kept : Reachable (turns K) t ∧ t.components.instances.get i = some location := by
    induction run with
    | refl => exact ⟨h, hi⟩
    | tail _ step ih =>
      obtain ⟨before, step⟩ := step
      obtain ⟨reached, located⟩ := ih before
      exact ⟨reachable_step reached step, step_located (reached_settled reached) step located mounted⟩
  obtain ⟨reached, located⟩ := kept
  have settled := reached_settled reached
  obtain ⟨root, hl⟩ := (settled.consistent.paired i location).mp located
  exact ⟨located, root, hl, settled.mirrors location _ hl⟩

/-- Every live task has a mounted owner, and after a turn the tasks are those that are still
owned and were not cancelled or superseded, and the turn's own. -/
theorem tasks_settled (h : Reachable (turns K) s) : Tasked s ∧
    ∀ patch t, (turns K).Step s (.accepted patch) t → ∀ task, task ∈ t.live ↔
      task ∈ s.live ∧ (task.owner = 0 ∨ (boundaryRoot t.graph task.owner).isSome) ∧
          ¬(task.key ≠ "" ∧ (task.owner, task.key) ∈ s.staged.cancels) ∧
          ¬(task.key ≠ "" ∧ (task.owner, task.key) ∈ s.staged.jobs.filter (admits t.graph)) ∨
        IssuedAt (s.staged.jobs.filter (admits t.graph)) s.nextSlot task := by
  have settled := reached_settled h
  refine ⟨settled.toTasked, ?_⟩
  rintro patch t ⟨hashOrder, order, a, v, components, hrun, -, rfl⟩ task
  refine mem_settled.trans (or_congr_left (and_congr_right fun hlive => and_congr_left fun _ => ?_))
  refine or_congr_right' fun hne => or_iff_right_of_imp fun hstays => ?_
  obtain ⟨x, hx⟩ := Option.isSome_iff_exists.mp ((settled.owned task hlive).resolve_left hne)
  exact Option.isSome_of_eq_some ((handover settled.shape settled.indexed hrun).kept _ x hx hstays)

end Runs

section Examples

def panel : Patch ℕ := .mount 1 [⟨1, .boundary 1, [2]⟩, ⟨2, .text, []⟩]

def panelRebuilt : Patch ℕ := .replace 1 3 [⟨3, .boundary 1, [4]⟩, ⟨4, .text, []⟩]

def panelDigest : Digest := ⟨List.replicate 32 0, rfl⟩

def panelLocation : ComponentLocation := ⟨[.boundary 0], .digest panelDigest⟩

def begun : Session ℕ :=
  { (.initial : Session ℕ) with components := after ((beginRender 0).run .initial) }

def opening : Session ℕ :=
  let chosen := resolving begun 1 panelDigest.val
  { chosen with
    components := after (finishRender.run chosen.components)
    staged := ⟨[(1, "load")], []⟩ }

theorem begun_reached : Reachable (turns ℕ) begun :=
  reachable_step (reachable_initial _) (e := .call (.beginRender 0)) rfl

theorem opening_reached : Reachable (turns ℕ) opening :=
  reachable_step (reachable_step (reachable_step begun_reached (e := .resolve 1 panelDigest.val) rfl)
    (e := .call .finishRender) rfl) (e := .enqueueTask 1 "load") rfl

noncomputable def someOrder : Enumeration ComponentLocation ComponentMount where
  entries m := m.keys.toList.map fun location => (location, (m.get location).getD ⟨0, 0⟩)
  distinct m := by
    rw [List.map_map]
    exact (List.map_id _).symm ▸ Finset.nodup_toList _
  listed m location mount := by
    cases h : m.get location <;> simp [FiniteMap.mem_keys, h]

theorem opening_mounts : ∃ a, (apply .sorted panel).run opening.graph = .ok a (afterPatch .empty panel) := by
  have unchanged : opening.graph = .empty := resolving_graph begun 1 panelDigest.val
  rw [unchanged]
  exact answer_is_ok (by decide +kernel)

theorem opening_accepted : ∃ t, Reachable (turns ℕ) t ∧ t.graph = afterPatch .empty panel ∧
    t.components.instances.get 1 = some panelLocation := by
  obtain ⟨a, hrun⟩ := opening_mounts
  obtain ⟨components, -, committed, step⟩ := commit_follows opening_reached hrun someOrder
  have reached := reachable_step opening_reached step
  refine ⟨_, reached, accept_graph .., ?_⟩
  have chosen : 1 ∈ opening.components.pendingInstances := by decide +kernel
  have mounted : (boundaryRoot (afterPatch .empty panel) 1).isSome := by decide +kernel
  obtain ⟨location, hi⟩ := Option.isSome_iff_exists.mp ((committed.registered 1).mpr ⟨mounted, .inr chosen⟩)
  obtain ⟨root, hl⟩ := (committed.consistent.paired 1 location).mp hi
  have held := (reached_settled reached).held location 1 root (.inl hl)
  have answered : opening.answered = [(panelLocation, 1)] := by decide +kernel
  rw [accept_answered, answered, List.mem_singleton, Prod.mk.injEq] at held
  exact held.1 ▸ hi

theorem opening_committed : ∃ a components,
    (commit someOrder (afterPatch .empty panel) a).run opening.components = .ok ⟨⟩ components ∧
      Committed opening.components components (afterPatch .empty panel) := by
  obtain ⟨a, hrun⟩ := opening_mounts
  obtain ⟨components, hcommit, committed, -⟩ := commit_follows opening_reached hrun someOrder
  exact ⟨a, components, hcommit, committed⟩

theorem begun_answers : asked begun.components 1 panelDigest.val = some panelLocation ∧
    panelLocation ∉ begun.components.seen := by
  have answered := answer_ok (r := (resolve 1 panelDigest.val).run begun.components) (a := (1, 0))
    (by decide +kernel)
  have located : asked begun.components 1 panelDigest.val = some panelLocation := by decide +kernel
  obtain ⟨location, hasked, unseen, -⟩ := resolve_answers begun_reached answered
  exact ⟨located, Option.some.inj (hasked.symm.trans located) ▸ unseen⟩

/-- The panel is the component it was before. -/
theorem panel_kept : ∃ s t, (turns ℕ).Step s (.accepted panelRebuilt) t ∧
    s.components.instances.get 1 = some panelLocation ∧
    t.components.live.get panelLocation = some ⟨1, 3⟩ := by
  obtain ⟨s, reached, hgraph, hi⟩ := opening_accepted
  obtain ⟨a, hrun⟩ : ∃ a, (apply .sorted panelRebuilt).run s.graph =
      .ok a (afterPatch (afterPatch .empty panel) panelRebuilt) := by
    rw [hgraph]
    exact answer_is_ok (by decide +kernel)
  obtain ⟨components, -, -, step⟩ := commit_follows reached hrun someOrder
  have before : (boundaryRoot s.graph 1).isSome := by
    rw [hgraph]
    decide +kernel
  have rebuilt : boundaryRoot (afterPatch (afterPatch .empty panel) panelRebuilt) 1 = some 3 := by
    decide +kernel
  rw [← accept_graph s (afterPatch (afterPatch .empty panel) panelRebuilt) a components] at rebuilt
  obtain ⟨-, root, hl, hroot⟩ :=
    identity_kept reached hi (.tail (.refl s) ⟨before, step⟩) (Option.isSome_of_eq_some rebuilt)
  obtain rfl := Option.some.inj (rebuilt.symm.trans hroot)
  exact ⟨s, _, step, hi, hl⟩

/-- The task of the panel starts when the panel is mounted. -/
theorem opening_loads : ∃ t, (turns ℕ).Step opening (.accepted panel) t ∧ ⟨0, 1, "load"⟩ ∈ t.live := by
  obtain ⟨a, hrun⟩ := opening_mounts
  obtain ⟨components, -, -, step⟩ := commit_follows opening_reached hrun someOrder
  refine ⟨_, step, ((tasks_settled opening_reached).2 panel _ step _).mpr (.inr ⟨0, ?_, ?_, ?_⟩)⟩
  · rw [accept_graph]
    decide +kernel
  · decide +kernel
  · rw [accept_graph]
    decide +kernel

end Examples

end AcceptedTurns
