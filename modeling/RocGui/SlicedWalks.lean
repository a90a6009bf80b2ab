import Mathlib.Data.PNat.Basic
import RocGui.MethodAnswers

/-! Walks with an explicit work stack, cut into slices of a bounded number of frames. A frame
may push others, and may suspend the walk until other work is done. -/
namespace SlicedWalks

open Methods MethodAnswers

variable {F C σ ε X : Type}

inductive WorkStack (F : Type) where
  | empty
  | node (item : F) (rest : WorkStack F)

namespace WorkStack

def push (stack : WorkStack F) (item : F) : WorkStack F := .node item stack

def isEmpty : WorkStack F → Bool
  | .empty => true
  | .node _ _ => false

end WorkStack

/-- What handling a frame leads to: the stack and the context to go on with, now or after
the pending work. -/
inductive Next (F C σ ε : Type) where
  | go (work : WorkStack F) (context : C)
  | suspend (pending : Method σ ε (WorkStack F × C))

inductive Turn (F C σ ε : Type) where
  | done (context : C)
  | resume (work : Method σ ε (WorkStack F × C))

section Machine

variable (step : F → WorkStack F → C → Method σ ε (Next F C σ ε))

def slice : ℕ → WorkStack F → C → Method σ ε (Turn F C σ ε)
  | _, .empty, c => pure (.done c)
  | 0, .node item rest, c => pure (.resume (pure (.node item rest, c)))
  | budget + 1, .node item rest, c => do
    match ← step item rest c with
    | .go work c => slice budget work c
    | .suspend pending => pure (.resume pending)

def proceed (next : WorkStack F → C → Method σ ε (Option C)) :
    Turn F C σ ε → Method σ ε (Option C)
  | .done c => pure (some c)
  | .resume work => do
    let (work, c) ← work
    next work c

def drive : (ℕ → ℕ+) → ℕ → WorkStack F → C → Method σ ε (Option C)
  | _, 0, _, _ => pure none
  | budget, turns + 1, work, c => do
    let turn ← slice step (budget 0) work c
    proceed (drive (fun i => budget (i + 1)) turns) turn

/-- How a walk ends when nothing interrupts it. -/
inductive Ends : WorkStack F → C → σ → EStateM.Result (Failure ε) σ C → Prop where
  | done {c s} : Ends .empty c s (.ok c s)
  | go {item rest c s work c' s' r} : (step item rest c).run s = .ok (.go work c') s' →
      Ends work c' s' r → Ends (.node item rest) c s r
  | failed {item rest c s e s'} : (step item rest c).run s = .error e s' →
      Ends (.node item rest) c s (.error e s')
  | suspend {item rest c s pending s' work c' s'' r} :
      (step item rest c).run s = .ok (.suspend pending) s' →
      pending.run s' = .ok (work, c') s'' → Ends work c' s'' r → Ends (.node item rest) c s r
  | lost {item rest c s pending s' e s''} :
      (step item rest c).run s = .ok (.suspend pending) s' →
      pending.run s' = .error e s'' → Ends (.node item rest) c s (.error e s'')

/-- The frames that `push` adds do what `m` does, whatever lies below them. -/
def Performs (push : WorkStack F → WorkStack F) (m : C → Method σ ε C) : Prop :=
  ∀ rest c s r, (∀ c' s', (m c).run s = .ok c' s' → Ends step rest c' s' r) →
    (∀ e s', (m c).run s = .error e s' → r = .error e s') → Ends step (push rest) c s r

end Machine

variable {step : F → WorkStack F → C → Method σ ε (Next F C σ ε)}

theorem performs_nothing : Performs step id pure := fun _ c s _ next _ => next c s rfl

theorem performs_congr {push : WorkStack F → WorkStack F} {m m' : C → Method σ ε C}
    (heq : ∀ c, m' c = m c) (h : Performs step push m) : Performs step push m' := by
  rw [funext heq]
  exact h

theorem performs_bind {push push' : WorkStack F → WorkStack F} {m m' : C → Method σ ε C}
    (h : Performs step push m) (h' : Performs step push' m') :
    Performs step (fun rest => push (push' rest)) (fun c => m c >>= m') := by
  intro rest c s r next failed
  refine h _ c s r (fun c' s' hm => h' rest c' s' r (fun c'' s'' hm' => ?_) fun e s'' hm' => ?_)
    fun e s' hm => ?_
  · apply next
    rw [EStateM.run_bind, hm]
    exact hm'
  · apply failed
    rw [EStateM.run_bind, hm]
    exact hm'
  · apply failed
    rw [EStateM.run_bind, hm]

theorem performs_node {item : F} {pre : C → Method σ ε X} {push : X → WorkStack F → WorkStack F}
    {context : X → C → C} {m : X → C → Method σ ε C}
    (hstep : ∀ rest c, step item rest c =
      pre c >>= fun x => pure (.go (push x rest) (context x c)))
    (hpush : ∀ x c, Answers (pre c) x → Performs step (push x) (m x)) :
    Performs step (.node item) (fun c => pre c >>= fun x => m x (context x c)) := by
  intro rest c s r next failed
  have hrun : (step item rest c).run s = _ := congrArg (fun p => p.run s) (hstep rest c)
  simp only [EStateM.run_bind] at hrun next failed
  cases hpre : (pre c).run s with
  | ok x s' =>
    simp only [hpre] at hrun next failed
    exact .go hrun (hpush x c ⟨s, s', hpre⟩ rest _ s' r next failed)
  | error e s' =>
    simp only [hpre] at hrun failed
    rw [failed e s' rfl]
    exact .failed hrun

theorem performs_step {item : F} {m : C → Method σ ε C}
    (hstep : ∀ rest c, step item rest c = m c >>= fun c => pure (.go rest c)) :
    Performs step (.node item) m := by
  have h := performs_node hstep fun _ _ _ => performs_nothing
  simpa using h

theorem performs_suspended {item : F} {pre : C → Method σ ε X}
    {push : X → WorkStack F → WorkStack F} {context : X → C → C} {m : X → C → Method σ ε C}
    (hstep : ∀ rest c, step item rest c =
      pure (.suspend (pre c >>= fun x => pure (push x rest, context x c))))
    (hpush : ∀ x c, Answers (pre c) x → Performs step (push x) (m x)) :
    Performs step (.node item) (fun c => pre c >>= fun x => m x (context x c)) := by
  intro rest c s r next failed
  have hrun : (step item rest c).run s = _ := congrArg (fun p => p.run s) (hstep rest c)
  simp only [EStateM.run_bind] at next failed
  cases hpre : (pre c).run s with
  | ok x s' =>
    simp only [hpre] at next failed
    refine .suspend hrun ?_ (hpush x c ⟨s, s', hpre⟩ rest _ s' r next failed)
    rw [EStateM.run_bind, hpre]
    rfl
  | error e s' =>
    simp only [hpre] at failed
    rw [failed e s' rfl]
    refine .lost hrun ?_
    rw [EStateM.run_bind, hpre]

def handed : EStateM.Result (Failure ε) σ C → EStateM.Result (Failure ε) σ (Option C)
  | .ok c s => .ok (some c) s
  | .error e s => .error e s

/-- The rest of a walk whose running slice has `left` frames to go, over `turns` more. -/
def remaining (step : F → WorkStack F → C → Method σ ε (Next F C σ ε)) (budget : ℕ → ℕ+)
    (left turns : ℕ) (work : WorkStack F) (c : C) : Method σ ε (Option C) :=
  slice step left work c >>= proceed (drive step budget turns)

theorem drive_succ (budget : ℕ → ℕ+) (turns : ℕ) (work : WorkStack F) (c : C) :
    drive step budget (turns + 1) work c =
      remaining step (fun i => budget (i + 1)) (budget 0) turns work c := rfl

theorem remaining_zero (budget : ℕ → ℕ+) (turns : ℕ) (item : F) (below : WorkStack F) (c : C) :
    remaining step budget 0 turns (.node item below) c =
      drive step budget turns (.node item below) c := by
  rw [remaining, slice, pure_bind]
  rfl

/-- However a walk is cut, it ends as it does uninterrupted. -/
theorem remaining_ends {work : WorkStack F} {c : C} {s : σ} {r : EStateM.Result (Failure ε) σ C}
    (h : Ends step work c s r) (budget : ℕ → ℕ+) (left : ℕ) :
    ∃ n, ∀ turns ≥ n, (remaining step budget left turns work c).run s = handed r := by
  -- one frame at the head of a slice with budget is enough: an exhausted slice starts the next
  have start {item below c s r} (positive : ∀ budget left, ∃ n, ∀ turns ≥ n,
      (remaining step budget (left + 1) turns (.node item below) c).run s = r)
      (budget : ℕ → ℕ+) (left : ℕ) :
      ∃ n, ∀ turns ≥ n, (remaining step budget left turns (.node item below) c).run s = r := by
    cases left with
    | succ left => exact positive budget left
    | zero =>
      obtain ⟨n, hn⟩ := positive (fun i => budget (i + 1)) (budget 0 - 1)
      refine ⟨n + 1, fun turns hturns => ?_⟩
      obtain ⟨turns, rfl⟩ := Nat.exists_eq_add_of_le' (Nat.le_of_add_left_le hturns)
      rw [remaining_zero, drive_succ, ← Nat.sub_add_cancel (budget 0).pos]
      exact hn turns (by omega)
  induction h generalizing budget left with
  | done => exact ⟨0, fun _ _ => by cases left <;> rfl⟩
  | go hstep _ ih =>
    refine start (fun budget left => ?_) budget left
    obtain ⟨n, hn⟩ := ih budget left
    refine ⟨n, fun turns hturns => ?_⟩
    rw [← hn turns hturns, remaining, slice, bind_assoc, EStateM.run_bind, hstep]
    rfl
  | failed hstep =>
    refine start (fun budget left => ⟨0, fun turns _ => ?_⟩) budget left
    rw [remaining, slice, bind_assoc, EStateM.run_bind, hstep]
    rfl
  | @suspend item below c s pending s' work c' s'' r hstep hpending _ ih =>
    refine start (fun budget left => ?_) budget left
    obtain ⟨n, hn⟩ := ih (fun i => budget (i + 1)) (budget 0)
    refine ⟨n + 1, fun turns hturns => ?_⟩
    obtain ⟨turns, rfl⟩ := Nat.exists_eq_add_of_le' (Nat.le_of_add_left_le hturns)
    rw [← hn turns (by omega), ← drive_succ, remaining, slice, bind_assoc, EStateM.run_bind, hstep]
    change (pending >>= fun x => drive step budget (turns + 1) x.1 x.2).run s' = _
    rw [EStateM.run_bind, hpending]
  | @lost item below c s pending s' e s'' hstep hpending =>
    refine start (fun budget left => ⟨0, fun turns _ => ?_⟩) budget left
    rw [remaining, slice, bind_assoc, EStateM.run_bind, hstep]
    change (pending >>= fun x => drive step budget turns x.1 x.2).run s' = _
    rw [EStateM.run_bind, hpending]
    rfl

/-- Frames that do what `m` does, driven on their own with any budgets, hand on what `m`
answers, or fail as it does. -/
theorem drive_performs {push : WorkStack F → WorkStack F} {m : C → Method σ ε C}
    (h : Performs step push m) (budget : ℕ → ℕ+) (c : C) (s : σ) :
    ∃ n, ∀ turns ≥ n, (drive step budget turns (push .empty) c).run s = handed ((m c).run s) := by
  have ends : Ends step (push .empty) c s ((m c).run s) := by
    refine h .empty c s _ (fun c' s' hm => ?_) fun e s' hm => hm
    rw [hm]
    exact .done
  obtain ⟨n, hn⟩ := remaining_ends ends (fun i => budget (i + 1)) (budget 0)
  refine ⟨n + 1, fun turns hturns => ?_⟩
  obtain ⟨turns, rfl⟩ := Nat.exists_eq_add_of_le' (Nat.le_of_add_left_le hturns)
  rw [drive_succ]
  exact hn turns (by omega)

end SlicedWalks
