import Mathlib.Logic.Relation

/-! Labelled transition systems and the one induction every safety result uses.
Nothing here depends on what the states and the events are. -/
namespace Transitions

structure System (σ ε : Type*) where
  initial : σ
  Step : σ → ε → σ → Prop

variable {σ ε : Type*} {S : System σ ε}

/-- A run lists its events with the latest one last. -/
inductive Execution (S : System σ ε) : σ → List ε → σ → Prop where
  | refl (s) : Execution S s [] s
  | tail {s t u es e} : Execution S s es t → S.Step t e u → Execution S s (es ++ [e]) u

def Reachable (S : System σ ε) (s : σ) : Prop := ∃ es, Execution S S.initial es s

theorem reachable_initial (S : System σ ε) : Reachable S S.initial := ⟨[], .refl _⟩

theorem reachable_step {s t : σ} {e : ε} (h : Reachable S s) (k : S.Step s e t) :
    Reachable S t := by
  obtain ⟨es, h⟩ := h
  exact ⟨es ++ [e], .tail h k⟩

theorem execution_invariant {P : σ → Prop}
    (preserved : ∀ s e t, P s → S.Step s e t → P t)
    {s t : σ} {es : List ε} (h : Execution S s es t) (hs : P s) : P t := by
  induction h with
  | refl => exact hs
  | tail _ k ih => exact preserved _ _ _ ih k

theorem reachable_invariant {P : σ → Prop} (start : P S.initial)
    (preserved : ∀ s e t, P s → S.Step s e t → P t)
    {s : σ} (h : Reachable S s) : P s := by
  obtain ⟨es, h⟩ := h
  exact execution_invariant preserved h start

theorem reachable_trace {next : σ → ε → Option σ} {es : List ε} {s t : σ}
    (hS : ∀ s e t, next s e = some t → S.Step s e t) (hs : Reachable S s)
    (h : es.foldlM next s = some t) : Reachable S t := by
  induction es generalizing s with
  | nil =>
    obtain rfl := Option.some.inj h
    exact hs
  | cons e es ih =>
    rw [List.foldlM_cons] at h
    obtain ⟨u, hu, hrest⟩ := Option.bind_eq_some_iff.mp h
    exact ih (reachable_step hs (hS s e u hu)) hrest

/-- The runs of `S` whose steps all meet a condition on the state and the event. -/
def System.restrict (S : System σ ε) (ok : σ → ε → Prop) : System σ ε :=
  ⟨S.initial, fun s e t => ok s e ∧ S.Step s e t⟩

theorem reachable_of_restrict {ok : σ → ε → Prop} {s : σ} (h : Reachable (S.restrict ok) s) :
    Reachable S s :=
  reachable_invariant (S := S.restrict ok) (reachable_initial S)
    (fun _ _ _ hs k => reachable_step hs k.2) h

/-- A machine given by its guard and its next-state function. -/
def guarded (initial : σ) (Enabled : σ → ε → Prop) (next : σ → ε → σ) : System σ ε :=
  ⟨initial, fun s e t => Enabled s e ∧ t = next s e⟩

section Guarded

variable {initial : σ} {Enabled : σ → ε → Prop} {next : σ → ε → σ}

theorem guarded_invariant {P : σ → Prop} (start : P initial)
    (preserved : ∀ s e, P s → Enabled s e → P (next s e))
    {s : σ} (h : Reachable (guarded initial Enabled next) s) : P s := by
  refine reachable_invariant (S := guarded initial Enabled next) start ?_ h
  rintro s e t hs ⟨he, rfl⟩
  exact preserved s e hs he

def runTrace (next : σ → ε → σ) (s : σ) : List ε → σ
  | [] => s
  | e :: es => runTrace next (next s e) es

def ValidTrace (Enabled : σ → ε → Prop) (next : σ → ε → σ) (s : σ) : List ε → Prop
  | [] => True
  | e :: es => Enabled s e ∧ ValidTrace Enabled next (next s e) es

instance decidableValidTrace [∀ s e, Decidable (Enabled s e)] (s : σ) :
    (es : List ε) → Decidable (ValidTrace Enabled next s es)
  | [] => isTrue trivial
  | e :: es => @instDecidableAnd _ _ _ (decidableValidTrace (next s e) es)

theorem valid_trace_reachable {es : List ε} {s : σ}
    (hs : Reachable (guarded initial Enabled next) s) (h : ValidTrace Enabled next s es) :
    Reachable (guarded initial Enabled next) (runTrace next s es) := by
  induction es generalizing s with
  | nil => exact hs
  | cons e es ih => exact ih (reachable_step hs ⟨h.1, rfl⟩) h.2

end Guarded

end Transitions
