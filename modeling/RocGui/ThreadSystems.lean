import RocGui.Transitions
import Mathlib.Logic.Function.Basic
import Mathlib.Data.Nat.Notation

/-! Threads over a shared state. A call is the section it runs next with its locals; a step
runs one section of one thread's call, and any other thread may run between two of them. -/
namespace ThreadSystems

open Transitions

structure ThreadState (σ γ : Type) where
  shared : σ
  calls : ℕ → γ

section Steps

variable {σ γ α : Type} (advance : σ → γ → α → Option (γ × σ))

/-- Thread `e.1` runs one section, or starts a call. -/
def step (s : ThreadState σ γ) (e : ℕ × α) : Option (ThreadState σ γ) :=
  (advance s.shared (s.calls e.1) e.2).map fun (call, shared) =>
    ⟨shared, Function.update s.calls e.1 call⟩

def threadSystem (initial : ThreadState σ γ) : System (ThreadState σ γ) (ℕ × α) where
  initial := initial
  Step s e t := step advance s e = some t

variable {advance} {s t : ThreadState σ γ} {e : ℕ × α}

theorem step_cases (h : step advance s e = some t) : ∃ call,
    advance s.shared (s.calls e.1) e.2 = some (call, t.shared) ∧
      t.calls = Function.update s.calls e.1 call := by
  obtain ⟨⟨call, shared⟩, hadvance, rfl⟩ := Option.map_eq_some_iff.mp h
  exact ⟨call, hadvance, rfl⟩

theorem calls_step {i : ℕ} (h : step advance s e = some t) (hi : i ≠ e.1) :
    t.calls i = s.calls i := by
  obtain ⟨call, -, hcalls⟩ := step_cases h
  rw [hcalls, Function.update_of_ne hi]

end Steps

section Schedules

variable {σ γ α : Type} (advance : σ → γ → α → Option (γ × σ))

/-- The state after a schedule; a section that cannot run is skipped. -/
def after (s : ThreadState σ γ) : List (ℕ × α) → ThreadState σ γ
  | [] => s
  | e :: es => after ((step advance s e).getD s) es

def runs (ok : ThreadState σ γ → ℕ × α → Bool) (s : ThreadState σ γ) : List (ℕ × α) → Bool
  | [] => true
  | e :: es => ok s e && (step advance s e).isSome && runs ok ((step advance s e).getD s) es

variable {advance} {s : ThreadState σ γ} {ε : Type} {S : System (ThreadState σ γ) ε}

/-- A schedule that runs is a run of every system that has its sections among its steps. What
its sections keep may be used for this. -/
theorem reachable_after (ok : ThreadState σ γ → ℕ × α → Bool) {P : ThreadState σ γ → Prop}
    {es : List (ℕ × α)} (event : ℕ × α → ε)
    (lift : ∀ s e t, P s → e ∈ es → ok s e = true → step advance s e = some t →
      S.Step s (event e) t ∧ P t)
    (h : Reachable S s) (hs : P s) (hruns : runs advance ok s es = true) :
    Reachable S (after advance s es) := by
  induction es generalizing s with
  | nil => exact h
  | cons e es ih =>
    rw [runs, Bool.and_eq_true, Bool.and_eq_true] at hruns
    obtain ⟨⟨hok, hsome⟩, hruns⟩ := hruns
    obtain ⟨t, ht⟩ := Option.isSome_iff_exists.mp hsome
    rw [after, ht, Option.getD_some]
    rw [ht, Option.getD_some] at hruns
    obtain ⟨hstep, hkept⟩ := lift s e t hs List.mem_cons_self hok ht
    exact ih (fun s e' t hs he' => lift s e' t hs (List.mem_cons_of_mem _ he'))
      (reachable_step h hstep) hkept hruns

theorem calls_after {es : List (ℕ × α)} {i : ℕ} (h : ∀ e ∈ es, i ≠ e.1) :
    (after advance s es).calls i = s.calls i := by
  induction es generalizing s with
  | nil => rfl
  | cons e es ih =>
    rw [after, ih fun e' he' => h e' (List.mem_cons_of_mem _ he')]
    cases ht : step advance s e with
    | none => rfl
    | some t => exact calls_step ht (h e List.mem_cons_self)

end Schedules

end ThreadSystems
