import RocGui.Actions

/-! The two adapters of actions: the pure one, which answers an action, and the one of the work
executor. Handlers may answer any action, with levels of its own or deferred. -/
namespace ActionAdapters

open Actions Actions.Action

variable {β γ : Type}

section Pure

variable (get : β → γ) (set : β → γ → β) (delegated : Option (β → Action β))

def project (latest : β) : Option γ := some (get latest)

def write (latest : β) (child : γ) : Option β := some (set latest child)

def asked : Option (β → Work (Action β)) := delegated.map fun handle candidate => pure (handle candidate)

def adapt (action : Action γ) (parent : β) : Action β :=
  match action with
  | .mk .noChange _ => none
  | .mk .refresh levels => refresh.withLevels levels
  | .mk (.update child) levels => (update (set parent child)).withLevels levels
  | .mk (.delegate child) levels =>
    match delegated with
    | .none => (delegate (set parent child)).withLevels levels
    | some handle =>
      let accepted := handle (set parent child)
      accepted.withLevels (levels + accepted.ownerLevels + 1)
  | .mk (.deferred resume) levels => deferred
    (adaptWork (project get) (write set) (asked delegated) (.mk (.deferred resume) levels) parent)
  | .mk (.task key pending run) levels => .mk (.task key (set parent pending)
    (adaptWorker (project get) (write set) (asked delegated) run)) levels
  | .mk (.cancel key state) levels => (cancel (set parent state) key).withLevels levels

end Pure

theorem resolve_given (m : ℕ) (action : Action β) :
    resolveWork (action.withLevels (m + action.ownerLevels)) = resolveFrom m action :=
  (resolve_above m action).symm

/-- What the pure adapter answers resolves to the action that the executor's adapter hands on: the
same change of state, task with its worker, cancel and levels. -/
theorem adapters_agree (get : β → γ) (set : β → γ → β) (delegated : Option (β → Action β))
    (action : Action γ) (parent : β) :
    (resolveWork (adapt get set delegated action parent)).answer =
      (adaptWork (project get) (write set) (asked delegated) action parent).answer := by
  obtain ⟨value, levels⟩ := action
  cases value with
  | noChange => rfl
  | refresh | update | task | cancel =>
    simp only [adapt, adaptWork, adaptFrom, write, resolveWork, refresh, update, cancel, withLevels,
      Action.value, resolveFrom, Work.pure_answer, Nat.zero_add]
  | deferred resume =>
    have settled : Settled (adaptWork (project get) (write set) (asked delegated)
        (.mk (.deferred resume) levels) parent).answer := adapted_settled 0 parent _
    rw [adapt, deferred, resolve_deferred]
    simp only [Nat.zero_add]
    rw [work_settled settled]
  | delegate child =>
    cases delegated with
    | none =>
      simp only [adapt, asked, Option.map_none, adaptWork, adaptFrom, write, resolveWork, delegate,
        withLevels, Action.value, resolveFrom, Work.pure_answer, Nat.zero_add]
    | some handle =>
      simp only [adapt, asked, Option.map_some, adaptWork, adaptFrom, write,
        Work.bind_answer, Work.pure_answer, Nat.zero_add]
      -- a handler that defers its answer gathers the levels on both sides, in another order
      have given := resolve_given (levels + 1) (handle (set parent child))
      have shift := congrArg Work.answer (resolve_shift (levels + 1) 0 (handle (set parent child)))
      rw [Nat.add_right_comm levels, given]
      rw [Nat.add_right_comm levels]
      exact shift

end ActionAdapters
