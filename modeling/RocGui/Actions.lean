import RocGui.FiniteMaps

/-! Actions of event handlers, and the adapters that carry them from a child's state to
its parent's. -/
namespace Actions

/-- Platform work in direct style: the boundaries whose policies were consulted, in order,
and what the work hands on. -/
structure Work (ρ : Type) where
  consulted : List ℕ
  answer : ρ

namespace Work

variable {ρ τ : Type}

def bind (work : Work ρ) (next : ρ → Work τ) : Work τ :=
  ⟨work.consulted ++ (next work.answer).consulted, (next work.answer).answer⟩

instance : Monad Work where
  pure answer := ⟨[], answer⟩
  bind := bind

instance : LawfulMonad Work :=
  LawfulMonad.mk' Work (fun work => congrArg (Work.mk · work.answer) (List.append_nil _))
    (fun _ _ => rfl) fun work f g =>
      congrArg (Work.mk · (g (f work.answer).answer).answer) (List.append_assoc _ _ _)

@[simp] theorem pure_consulted (a : ρ) : (pure a : Work ρ).consulted = [] := rfl

@[simp] theorem pure_answer (a : ρ) : (pure a : Work ρ).answer = a := rfl

@[simp] theorem bind_consulted (work : Work ρ) (next : ρ → Work τ) :
    (work >>= next).consulted = work.consulted ++ (next work.answer).consulted := rfl

@[simp] theorem bind_answer (work : Work ρ) (next : ρ → Work τ) :
    (work >>= next).answer = (next work.answer).answer := rfl

end Work

/-- What an action asks for; `β` stands for the actions that it goes on with. A worker ends with a
completion, which is given the state of its delivery. -/
inductive Value (α β : Type) where
  | noChange
  | refresh
  | update (next : α)
  | delegate (next : α)
  | deferred (resume : Work β)
  | task (key : String) (pending : α) (run : Work (α → Work β))
  | cancel (key : String) (state : α)

inductive Action (α : Type) where
  | mk (value : Value α (Action α)) (levels : ℕ)

namespace Action

variable {α β γ : Type}

/-- `inspect`. -/
def value : Action α → Value α (Action α)
  | .mk value _ => value

def ownerLevels : Action α → ℕ
  | .mk _ levels => levels

def withLevels (action : Action α) (levels : ℕ) : Action α := .mk action.value levels

def none : Action α := .mk .noChange 0

def refresh : Action α := .mk .refresh 0

def update (state : α) : Action α := .mk (.update state) 0

def delegate (state : α) : Action α := .mk (.delegate state) 0

def cancel (state : α) (key : String) : Action α := .mk (.cancel key state) 0

def deferred (resume : Work (Action α)) : Action α := .mk (.deferred resume) 0

mutual

def resolveFrom (above : ℕ) : Action α → Work (Action α)
  | .mk (.deferred resume) levels => resolveNext (above + levels) resume
  | .mk value levels => pure (.mk value (above + levels))

def resolveNext (above : ℕ) : Work (Action α) → Work (Action α)
  | ⟨consulted, next⟩ =>
    ⟨consulted ++ (resolveFrom above next).consulted, (resolveFrom above next).answer⟩

end

/-- `resolve_work!`. -/
def resolveWork (action : Action α) : Work (Action α) := resolveFrom 0 action

/-- An action without levels of its own: what the constructors for applications build. -/
def Plain : Action α → Prop
  | .mk (.deferred ⟨consulted, next⟩) levels => levels = 0 ∧ consulted = [] ∧ Plain next
  | .mk _ levels => levels = 0

end Action

/-- What a handler or a policy answers. -/
structure Answer (α : Type) where
  action : Action α
  plain : action.Plain

namespace Action

variable {α β γ : Type}

def consult (key : ℕ) (handle : β → Answer β) (candidate : β) : Work (Action β) :=
  ⟨[key], (handle candidate).action⟩

section Adapting

variable (project : β → Option γ) (set : β → γ → Option β) (delegated : Option (β → Work (Action β)))

mutual

def adaptFrom (above : ℕ) : Action γ → β → Work (Action β)
  | .mk (.deferred resume) levels, parent => adaptNext (above + levels) resume parent
  | .mk .noChange _, _ => pure none
  | .mk .refresh levels, _ => pure (refresh.withLevels (above + levels))
  | .mk (.update child) levels, parent =>
    match set parent child with
    | .none => pure none
    | some next => pure ((update next).withLevels (above + levels))
  | .mk (.delegate child) levels, parent =>
    match set parent child with
    | .none => pure none
    | some candidate =>
      match delegated with
      | .none => pure ((delegate candidate).withLevels (above + levels))
      | some handle => do
        let accepted ← handle candidate >>= resolveWork
        return accepted.withLevels (above + levels + accepted.ownerLevels + 1)
  | .mk (.task key pending run) levels, parent =>
    match set parent pending with
    | .none => pure none
    | some pending => pure (.mk (.task key pending (adaptWorker run)) (above + levels))
  | .mk (.cancel key state) levels, parent =>
    match set parent state with
    | .none => pure none
    | some next => pure ((cancel next key).withLevels (above + levels))

def adaptNext (above : ℕ) : Work (Action γ) → β → Work (Action β)
  | ⟨consulted, next⟩, parent =>
    ⟨consulted ++ (adaptFrom above next parent).consulted,
      (adaptFrom above next parent).answer⟩

/-- A completion reads the child out of the state that it arrives in. -/
def adaptWorker : Work (γ → Work (Action γ)) → Work (β → Work (Action β))
  | ⟨consulted, complete⟩ => ⟨consulted, fun latest =>
    match project latest with
    | .none => pure none
    | some child => adaptNext 0 (complete child) latest⟩

end

/-- `adapt_work!`, the action being resolved on the way. -/
def adaptWork (action : Action γ) (parent : β) : Work (Action β) :=
  adaptFrom project set delegated 0 action parent

end Adapting

def Settled (action : Action α) : Prop := ∀ resume, action.value ≠ .deferred resume

theorem settled_none : Settled (none : Action α) := fun _ h => by cases h

theorem settled_levels {action : Action α} (h : Settled action) (levels : ℕ) :
    Settled (action.withLevels levels) := h

section Resolving

theorem resolve_next (above : ℕ) (work : Work (Action α)) :
    resolveNext above work = work >>= resolveFrom above := by
  cases work
  rfl

theorem resolve_above (above : ℕ) (action : Action α) :
    resolveFrom above action = resolveWork (action.withLevels (above + action.ownerLevels)) := by
  obtain ⟨value, levels⟩ := action
  cases value <;> simp [resolveFrom, resolveWork, withLevels, Action.value, ownerLevels]

theorem resolve_deferred (resume : Work (Action α)) (levels : ℕ) :
    resolveWork (.mk (.deferred resume) levels) = resume >>= fun next =>
      resolveWork (next.withLevels (levels + next.ownerLevels)) := by
  rw [resolveWork, resolveFrom, resolve_next, Nat.zero_add]
  exact bind_congr fun next => resolve_above levels next

theorem resolve_shift (m above : ℕ) : (action : Action α) → resolveFrom (m + above) action =
    resolveFrom above action >>= fun resolved =>
      pure (resolved.withLevels (m + resolved.ownerLevels))
  | .mk (.deferred ⟨consulted, next⟩) levels => by
    have ih := resolve_shift m (above + levels) next
    rw [← Nat.add_assoc] at ih
    simp only [resolveFrom, resolveNext, ih]
    exact congrArg (Work.mk · _) (List.append_assoc _ _ _).symm
  | .mk .noChange _ | .mk .refresh _ | .mk (.update _) _ | .mk (.delegate _) _
  | .mk (.task ..) _ | .mk (.cancel ..) _ => by
    simp [resolveFrom, withLevels, Action.value, ownerLevels, Nat.add_assoc]

theorem resolve_settled {action : Action α} (h : Settled action) :
    resolveWork action = pure action := by
  obtain ⟨value, levels⟩ := action
  cases value with
  | deferred resume => exact absurd rfl (h resume)
  | _ => simp [resolveWork, resolveFrom]

theorem work_settled {work : Work (Action α)} (h : Settled work.answer) :
    (work >>= fun next => resolveWork (next.withLevels next.ownerLevels)) = work := by
  have same : work.answer.withLevels work.answer.ownerLevels = work.answer := by
    obtain ⟨_, ⟨value, levels⟩⟩ := work
    rfl
  have settled := resolve_settled h
  calc (work >>= fun next => resolveWork (next.withLevels next.ownerLevels))
      = work >>= fun _ => resolveWork work.answer := by
        conv_rhs => rw [← same]
        rfl
    _ = work >>= pure := by
        rw [settled]
        rfl
    _ = work := bind_pure work

theorem resolved_settled (above : ℕ) : (action : Action α) →
    Settled (resolveFrom above action).answer
  | .mk (.deferred ⟨_, next⟩) levels => resolved_settled (above + levels) next
  | .mk .noChange _ | .mk .refresh _ | .mk (.update _) _ | .mk (.delegate _) _
  | .mk (.task ..) _ | .mk (.cancel ..) _ => fun _ h => by cases h

theorem resolved_plain (above : ℕ) : (action : Action α) → action.Plain →
    (resolveFrom above action).consulted = [] ∧ (resolveFrom above action).answer.ownerLevels = above
  | .mk (.deferred ⟨consulted, next⟩) levels, h => by
    obtain ⟨rfl, rfl, hnext⟩ := h
    exact resolved_plain above next hnext
  | .mk .noChange _, h | .mk .refresh _, h | .mk (.update _) _, h | .mk (.delegate _) _, h
  | .mk (.task ..) _, h | .mk (.cancel ..) _, h => by
    obtain rfl : _ = 0 := h
    exact ⟨rfl, rfl⟩

variable {project : β → Option γ} {set : β → γ → Option β} {delegated : Option (β → Work (Action β))}

theorem adapt_resolves (above : ℕ) (parent : β) : (action : Action γ) →
    adaptFrom project set delegated above action parent =
      resolveFrom above action >>= fun resolved => adaptWork project set delegated resolved parent
  | .mk (.deferred ⟨consulted, next⟩) levels => by
    have ih := adapt_resolves (above + levels) parent next
    simp only [adaptFrom, adaptNext, resolveFrom, resolveNext, ih]
    exact congrArg (Work.mk · _) (List.append_assoc _ _ _).symm
  | .mk .noChange _ | .mk .refresh _ | .mk (.update _) _ | .mk (.delegate _) _
  | .mk (.task ..) _ | .mk (.cancel ..) _ => by
    simp only [adaptWork, adaptFrom, resolveFrom, pure_bind, Nat.zero_add]

theorem adapted_settled (above : ℕ) (parent : β) : (action : Action γ) →
    Settled (adaptFrom project set delegated above action parent).answer
  | .mk (.deferred ⟨_, next⟩) levels => adapted_settled (above + levels) parent next
  | .mk .noChange _ | .mk .refresh _ => fun _ h => by cases h
  | .mk (.update child) _ | .mk (.task _ child _) _ | .mk (.cancel _ child) _ => by
    simp only [adaptFrom]
    cases set parent child <;> exact fun _ h => by cases h
  | .mk (.delegate child) _ => by
    simp only [adaptFrom]
    cases set parent child with
    | none => exact settled_none
    | some candidate =>
      cases delegated with
      | none => exact fun _ h => by cases h
      | some handle => exact settled_levels (resolved_settled 0 _) _

end Resolving

end Action

end Actions
