import RocGui.AcceptedTurns
import RocGui.TaskAccounting

/-! The tasks of a turn, with every step of the UI thread and of the workers: however these are
interleaved, a turn leaves what its calls taken whole would leave. -/
namespace TaskTurns

open Transitions TaskLifetimes TaskAccounting GraphState GraphPatches ComponentRegistries
open AcceptedTurns (LiveTask StagedTurn stopWhere admits issueStaged settleTasks)

/-- The live tasks and the next slot, as a turn sees them. -/
abbrev TurnTasks := AcceptedTurns.Tasks

def task (t : Tasks) (s : ℕ) : LiveTask := ⟨s, (t.slot s).owner, (t.slot s).key⟩

def view (t : Tasks) : TurnTasks := (t.live.map (task t), t.allocated)

/-- A call of the UI thread, taken whole. -/
def Performs : Call → TurnTasks → TurnTasks → Prop
  | .issue owner key, before, after =>
    after = (AcceptedTurns.issue owner key before.1 before.2, before.2 + 1)
  | .cancel owner key, before, after => after = (AcceptedTurns.cancel owner key before.1, before.2)
  | .unmount removed, before, after => after = (AcceptedTurns.unmount removed before.1, before.2)
  -- nothing is delivered unless the worker has published the task
  | .deliver slot, before, after =>
    after = before ∨ after = (before.1.filter fun task => task.slot ≠ slot, before.2)
  | .reset, before, after => after = ([], before.2)

def PerformsAll : List Call → TurnTasks → TurnTasks → Prop
  | [], before, after => after = before
  | call :: rest, before, after => ∃ between, Performs call before between ∧ PerformsAll rest between after

def callOf : Event → Option Call
  | .call c => some c
  | _ => none

section Outcomes

def selected : Selection → LiveTask → Bool
  | .keyed owner key, task => task.owner = owner ∧ task.key = key
  | .removed removed, task => task.owner ≠ 0 ∧ task.owner ∈ removed

def resumed : After → TurnTasks → TurnTasks
  | .finished, tasks | .zero, tasks => tasks
  | .create owner key, tasks => (tasks.1 ++ [⟨tasks.2, owner, key⟩], tasks.2 + 1)

/-- What the rest of a call may make of the tasks. Only a delivery still has a choice. -/
def Left (task : ℕ → LiveTask) (before after : TurnTasks) : Ui → Prop
  | .idle | .zero _ | .deliverTake _ => after = before
  | .partition _ selection goesOn =>
    after = resumed goesOn (stopWhere (selected selection) before.1, before.2)
  | .drain => after = ([], before.2)
  | .stopNext _ _ goesOn | .stopExchange _ _ _ _ goesOn | .stopCount _ _ _ goesOn
  | .stopTake _ _ _ goesOn | .stopHook _ _ _ goesOn => after = resumed goesOn before
  | .create owner key => after = resumed (.create owner key) before
  | .countIssued s | .pushLive s => after = (before.1 ++ [task s], before.2)
  | .deliverExchange s =>
    after = before ∨ after = (before.1.filter fun task => task.slot ≠ s, before.2)
  | .countDelivered s | .retainLive s => after = (before.1.filter fun task => task.slot ≠ s, before.2)

/-- What the tasks may be when the call in progress returns. -/
def Outcome (t : Tasks) (after : TurnTasks) : Prop := Left (task t) (view t) after t.ui

variable {t u : Tasks} {tasks : TurnTasks}

theorem outcome_idle (idle : t.ui = .idle) : Outcome t tasks ↔ tasks = view t := by
  rw [Outcome, idle, Left]

theorem selects_task (selection : Selection) (s : ℕ) :
    selection.selects (t.slot s) = selected selection (task t s) := by
  cases selection <;> rw [Bool.eq_iff_iff, selected, decide_eq_true_eq] <;> simp [Selection.selects, task]

structure Same (t u : Tasks) : Prop where
  task : ∀ s, task u s = task t s
  live : u.live = t.live
  allocated : u.allocated = t.allocated

theorem same_view (h : Same t u) : view u = view t := by
  rw [view, view, h.live, h.allocated, funext h.task]

theorem outcome_same (h : Same t u) (ui : u.ui = t.ui) : Outcome u tasks ↔ Outcome t tasks := by
  rw [Outcome, ui, same_view h, funext h.task, Outcome]

theorem same_moved {u' : Tasks} (h : Same t u) (slot : u'.slot = u.slot) (live : u'.live = u.live)
    (allocated : u'.allocated = u.allocated) : Same t u' := by
  refine ⟨fun s => ?_, live.trans h.live, allocated.trans h.allocated⟩
  rw [← h.task, task, task, slot]

theorem same_state (s : ℕ) (state : SlotState) : Same t (t.setState s state) := by
  refine ⟨fun r => ?_, rfl, rfl⟩
  by_cases hr : r = s <;> simp [task, Tasks.setState, hr]

theorem same_completion (s : ℕ) (completion : Option Owned) : Same t (t.setCompletion s completion) := by
  refine ⟨fun r => ?_, rfl, rfl⟩
  by_cases hr : r = s <;> simp [task, Tasks.setCompletion, hr]

theorem same_interrupt (s : ℕ) (armed : Bool) : Same t (t.setInterrupt s armed) := by
  refine ⟨fun r => ?_, rfl, rfl⟩
  by_cases hr : r = s <;> simp [task, Tasks.setInterrupt, hr]

theorem same_take (s : ℕ) (party : Party) : Same t (takeCompletion t s party) := by
  unfold takeCompletion
  split
  · exact ⟨fun _ => rfl, rfl, rfl⟩
  · exact same_moved (same_completion s none) rfl rfl rfl

theorem worker_same {e : Event} {s : ℕ} (hs : slotOf e = some s) : Same t (next t e) := by
  cases e with
  | call | ui => cases hs
  | begin s =>
    simp only [next]
    split
    · exact same_moved (same_state s .running) rfl rfl rfl
    · exact ⟨fun _ => rfl, rfl, rfl⟩
  | register | leave => exact ⟨fun _ => rfl, rfl, rfl⟩
  | arm s => exact same_interrupt s true
  | disarm s => exact same_interrupt s false
  | store s completion =>
    exact same_moved (same_completion s (some completion)) rfl rfl rfl
  | exchange s =>
    simp only [next]
    split
    · exact same_moved (same_state s .published) rfl rfl rfl
    · exact ⟨fun _ => rfl, rfl, rfl⟩
  | settle s =>
    simp only [next]
    split
    · exact ⟨fun _ => rfl, rfl, rfl⟩
    · exact same_moved (same_take s .finish) rfl rfl rfl

theorem worker_outcome {e : Event} {s : ℕ} (h : Invariant t) (he : Enabled t e) (hs : slotOf e = some s) :
    Outcome (next t e) tasks ↔ Outcome t tasks :=
  outcome_same (worker_same hs) (worker_frame h he hs).ui

theorem view_filter (t : Tasks) {keep : ℕ → Bool} (keeps : LiveTask → Bool)
    (h : ∀ s, keep s = keeps (task t s)) :
    (t.live.filter keep).map (task t) = (t.live.map (task t)).filter keeps := by
  rw [List.filter_map]
  exact congrArg (List.map _) (List.filter_congr fun s _ => h s)

theorem view_create (h : Invariant t) (owner : ℕ) (key : String) :
    t.live.map (task { t with
      slot := Function.update t.slot t.allocated ⟨owner, key, .queued, false, none⟩ }) =
      t.live.map (task t) := by
  refine List.map_congr_left fun s hs => ?_
  have hne : s ≠ t.allocated := (h.live_named s hs).ne
  simp [task, hne]

theorem ui_outcome (h : Invariant t) (step : Outcome (uiStep t) tasks) : Outcome t tasks := by
  rw [Outcome]
  cases hu : t.ui with
  | idle =>
    rwa [uiStep, hu, Outcome, hu] at step
  | partition why selection goesOn =>
    simp only [uiStep, hu] at step
    refine Eq.trans step (congrArg (resumed goesOn) (Prod.ext ?_ rfl))
    exact view_filter t (fun task => !selected selection task) fun s =>
      congrArg (! ·) (selects_task selection s)
  | drain | stopCount | countIssued | countDelivered =>
    simp only [uiStep, hu] at step
    exact step
  | stopNext why ended goesOn =>
    cases ended with
    | nil =>
      simp only [uiStep, hu] at step
      cases goesOn <;> exact step
    | cons s rest =>
      simp only [uiStep, hu] at step
      split at step <;> exact step
  | stopExchange why s current rest goesOn =>
    simp only [uiStep, hu] at step
    split at step
    · exact Eq.trans step
        (congrArg (resumed goesOn) (same_view (same_moved (same_state s why.state) rfl rfl rfl)))
    · split at step <;> exact step
  | stopTake why s rest goesOn =>
    simp only [uiStep, hu] at step
    exact Eq.trans step (congrArg (resumed goesOn) (same_view (same_moved (same_take s .stop) rfl rfl rfl)))
  | stopHook why s rest goesOn =>
    simp only [uiStep, hu] at step
    split at step <;> exact step
  | create owner key =>
    simp only [uiStep, hu] at step
    refine Eq.trans step (Prod.ext (congrArg₂ (· ++ ·) (view_create h owner key) ?_) rfl)
    simp [task, view]
  | pushLive s =>
    simp only [uiStep, hu] at step
    exact Eq.trans step (Prod.ext List.map_append rfl)
  | zero i =>
    simp only [uiStep, hu] at step
    split at step <;> exact step
  | deliverExchange s =>
    simp only [uiStep, hu] at step
    split at step
    · refine .inr (Eq.trans step ?_)
      exact congrArg (fun before : TurnTasks => (before.1.filter fun task => task.slot ≠ s, before.2))
        (same_view (same_moved (same_state s .delivered) rfl rfl rfl))
    · exact .inl step
  | retainLive s =>
    simp only [uiStep, hu] at step
    refine Eq.trans step (Prod.ext ?_ rfl)
    exact view_filter t (fun task => task.slot ≠ s) fun _ => rfl
  | deliverTake s =>
    simp only [uiStep, hu] at step
    exact Eq.trans step (same_view (same_moved (same_take s .deliver) rfl rfl rfl))

theorem enter_outcome (c : Call) (step : Outcome { t with ui := enter c } tasks) :
    Performs c (view t) tasks := by
  cases c with
  | issue owner key =>
    by_cases hkey : key = ""
    · simp only [enter, hkey, if_pos] at step
      rw [hkey]
      exact step
    · simp only [enter, hkey, if_neg, not_false_eq_true] at step
      refine Eq.trans step (Prod.ext ?_ rfl)
      rw [AcceptedTurns.issue, if_pos hkey]
      rfl
  | cancel owner key =>
    by_cases hkey : key = ""
    · simp only [enter, hkey, if_pos] at step
      refine Eq.trans step (Prod.ext ?_ rfl)
      rw [AcceptedTurns.cancel, if_pos hkey]
      rfl
    · simp only [enter, hkey, if_neg, not_false_eq_true] at step
      refine Eq.trans step (Prod.ext ?_ rfl)
      rw [AcceptedTurns.cancel, if_neg hkey]
      rfl
  | unmount removed =>
    by_cases hremoved : removed = []
    · simp only [enter, hremoved, if_pos] at step
      refine Eq.trans step (Prod.ext ?_ rfl)
      rw [AcceptedTurns.unmount, if_pos hremoved]
      rfl
    · simp only [enter, hremoved, if_neg, not_false_eq_true] at step
      refine Eq.trans step (Prod.ext ?_ rfl)
      rw [AcceptedTurns.unmount, if_neg hremoved]
      rfl
  | deliver slot => exact step
  | reset => exact step

end Outcomes

section Runs

variable {t u : Tasks} {tasks before after : TurnTasks}

theorem performs_append {calls rest : List Call} : PerformsAll (calls ++ rest) before after ↔
    ∃ between, PerformsAll calls before between ∧ PerformsAll rest between after := by
  induction calls generalizing before with
  | nil => simp [PerformsAll]
  | cons call calls ih =>
    simp only [List.cons_append, PerformsAll, ih]
    constructor
    · rintro ⟨between, hcall, last, hcalls, hrest⟩
      exact ⟨last, ⟨between, hcall, hcalls⟩, hrest⟩
    · rintro ⟨last, ⟨between, hcall, hcalls⟩, hrest⟩
      exact ⟨between, hcall, last, hcalls, hrest⟩

theorem idle_of_call {c : Call} (enabled : Enabled t (.call c)) : t.ui = .idle := by
  cases c with
  | deliver => exact enabled.1
  | issue | cancel | unmount | reset => exact enabled

theorem calls_or_same {e : Event} (h : Invariant t) (enabled : Enabled t e)
    (outcome : Outcome (next t e) tasks) :
    (∃ c, e = .call c ∧ t.ui = .idle ∧ Performs c (view t) tasks) ∨ callOf e = none ∧ Outcome t tasks := by
  cases e with
  | call c => exact .inl ⟨c, rfl, idle_of_call enabled, enter_outcome c outcome⟩
  | ui => exact .inr ⟨rfl, ui_outcome h outcome⟩
  | begin s | register s | arm s | disarm s | store s _ | exchange s | settle s | leave s =>
    exact .inr ⟨rfl, (worker_outcome (s := s) h enabled rfl).mp outcome⟩

/-- What a run may come to is what its calls may come to, one after the other. -/
theorem run_outcome (h : Reachable system t) (idle : t.ui = .idle) {events : List Event}
    (run : Execution system t events u) (outcome : Outcome u tasks) :
    PerformsAll (events.filterMap callOf) (view t) tasks := by
  induction run generalizing tasks with
  | refl => exact (outcome_idle idle).mp outcome
  | tail before step ih =>
    obtain ⟨enabled, rfl⟩ := step
    have reached := execution_invariant (fun _ _ _ h step => reachable_step h step) before h
    rw [List.filterMap_append, performs_append]
    rcases calls_or_same (reachable_accounts reached) enabled outcome with
      ⟨c, rfl, between, performs⟩ | ⟨none, outcome⟩
    · exact ⟨_, ih ((outcome_idle between).mpr rfl), tasks, performs, rfl⟩
    · refine ⟨tasks, ih outcome, ?_⟩
      rw [List.filterMap_cons_none none]
      rfl

variable {K : Type} {v : MountedGraph K} {a : GraphApply K}

/-- The calls `accept_transaction` makes, in its order. -/
def turnCalls (v : MountedGraph K) (a : GraphApply K) (turn : StagedTurn) : List Call :=
  .unmount (a.removedInstances.filter fun i => boundaryRoot v i = none) ::
    turn.cancels.map (fun staged => .cancel staged.1 staged.2) ++
      (turn.jobs.filter (admits v)).map fun job => .issue job.1 job.2

theorem performs_cancels {cancels : List (ℕ × String)} :
    PerformsAll (cancels.map fun staged => .cancel staged.1 staged.2) before after ↔
      after = (cancels.foldl (fun live staged => AcceptedTurns.cancel staged.1 staged.2 live) before.1,
        before.2) := by
  induction cancels generalizing before with
  | nil => rfl
  | cons staged rest ih => simp [PerformsAll, Performs, ih]

theorem performs_issues {jobs : List (ℕ × String)} :
    PerformsAll (jobs.map fun job => .issue job.1 job.2) before after ↔ after = jobs.foldl
      (fun tasks job => (AcceptedTurns.issue job.1 job.2 tasks.1 tasks.2, tasks.2 + 1)) before := by
  induction jobs generalizing before with
  | nil => rfl
  | cons job rest ih => simp [PerformsAll, Performs, ih]

theorem performs_turn {turn : StagedTurn} :
    PerformsAll (turnCalls v a turn) before after ↔ after = settleTasks v a turn before := by
  rw [turnCalls, performs_append, settleTasks, AcceptedTurns.issue_admitted]
  simp only [PerformsAll, Performs, exists_eq_left, performs_cancels, performs_issues]

/-- However workers come in between, a turn leaves the tasks that it settles. -/
theorem turn_settles (h : Reachable system t) (idle : t.ui = .idle) {turn : StagedTurn}
    {events : List Event} (run : Execution system t events u)
    (calls : events.filterMap callOf = turnCalls v a turn) (done : u.ui = .idle) :
    view u = settleTasks v a turn (view t) := by
  rw [← performs_turn, ← calls]
  exact run_outcome h idle run ((outcome_idle done).mpr rfl)

end Runs

section Examples

theorem execution_append {t u w : Tasks} {es fs : List Event} (first : Execution system t es u)
    (second : Execution system u fs w) : Execution system t (es ++ fs) w := by
  induction second with
  | refl => rwa [List.append_nil]
  | tail _ step ih =>
    rw [← List.append_assoc]
    exact .tail ih step

theorem trace_execution {es : List Event} {t : Tasks} (h : ValidTrace Enabled next t es) :
    Execution system t es (runTrace next t es) := by
  induction es generalizing t with
  | nil => exact .refl t
  | cons e es ih =>
    have first : Execution system t [e] (next t e) := .tail (.refl t) ⟨h.1, rfl⟩
    exact execution_append first (ih h.2)

def loading : Tasks := runTrace next initial [.call (.issue 0 "load"), .ui, .ui, .ui, .ui, .ui]

def loadingAgain : List Event :=
  [.call (.unmount []), .call (.issue 0 "load"), .ui, .begin 0, .ui, .register 0, .ui, .ui, .ui, .ui,
    .store 0 ⟨5⟩, .ui, .ui, .ui, .exchange 0, .ui]

def nothing : GraphApply ℕ :=
  ⟨⟨"no_change", 0, 0, 0, 0, 0, 0, 0, 0, 0⟩, none, [], [], false, none, [], [], [], []⟩

theorem loading_again : view (runTrace next loading loadingAgain) =
    settleTasks .empty nothing ⟨[(0, "load")], []⟩ (view loading) := by
  have reached : Reachable system loading := valid_trace_reachable (reachable_initial _) (by decide)
  exact turn_settles reached (by decide) (trace_execution (by decide)) (by decide) (by decide)

/-- Only the later task is left. -/
example : view (runTrace next loading loadingAgain) = ([⟨1, 0, "load"⟩], 2) := by decide

end Examples

end TaskTurns
