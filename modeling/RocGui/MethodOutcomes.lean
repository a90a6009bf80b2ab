import RocGui.Methods

/-! What a call is sure of when it may panic: it never refuses, it ends, and what it returns and
leaves behind is as it should be. -/
namespace MethodOutcomes

open Methods

variable {σ ε α β ι : Type}

/-- The call returns with `P`, or panics. -/
def Yields (m : Method σ ε α) (s : σ) (P : α → σ → Prop) : Prop :=
  match m.run s with
  | .ok a t => P a t
  | .error (.panic _) _ => True
  | .error _ _ => False

variable {P Q : α → σ → Prop} {m : Method σ ε α} {s t : σ}

theorem yields_ok {a : α} (h : Yields m s P) (hrun : m.run s = .ok a t) : P a t := by
  rwa [Yields, hrun] at h

theorem yields_not_refused {e : ε} (h : Yields m s P) : m.run s ≠ .error (.error e) t := by
  intro hrun
  rwa [Yields, hrun] at h

theorem yields_ends (h : Yields m s P) : m.run s ≠ .error .diverges t := by
  intro hrun
  rwa [Yields, hrun] at h

theorem yields_mono (h : Yields m s P) (weaker : ∀ a t, P a t → Q a t) : Yields m s Q := by
  unfold Yields at h ⊢
  cases hrun : m.run s with
  | ok a t =>
    rw [hrun] at h
    exact weaker a t h
  | error failure t =>
    rw [hrun] at h
    cases failure with
    | panic message => trivial
    | error reason => exact h
    | diverges => exact h

theorem yields_pure {a : α} (h : P a s) : Yields (pure a : Method σ ε α) s P := h

theorem yields_panics (message : String) : Yields (panics message : Method σ ε α) s P := trivial

theorem yields_bind {R : β → σ → Prop} {f : α → Method σ ε β} (hm : Yields m s Q)
    (hf : ∀ a t, Q a t → Yields (f a) t R) : Yields (m >>= f) s R := by
  unfold Yields at hm ⊢
  rw [EStateM.run_bind]
  cases hrun : m.run s with
  | ok a t =>
    rw [hrun] at hm
    exact hf a t hm
  | error failure t =>
    rw [hrun] at hm
    cases failure with
    | panic message => trivial
    | error reason => exact hm
    | diverges => exact hm

theorem yields_get {P : σ → σ → Prop} (h : P s s) : Yields (get : Method σ ε σ) s P := h

theorem yields_set {P : PUnit → σ → Prop} (h : P ⟨⟩ t) : Yields (set t : Method σ ε PUnit) s P := h

theorem yields_modify {P : PUnit → σ → Prop} {f : σ → σ} (h : P ⟨⟩ (f s)) :
    Yields (modify f : Method σ ε PUnit) s P := h

theorem yields_expect {message : String} {o : Option α} (h : ∀ a, o = some a → P a s) :
    Yields (expect message o : Method σ ε α) s P := by
  cases o with
  | none => exact yields_panics message
  | some a => exact h a rfl

theorem yields_ofExcept {r : Except (Failure ε) α} {a : α} (hr : r = .ok a) (h : P a s) :
    Yields (MonadExcept.ofExcept r : Method σ ε α) s P := by
  subst hr
  exact h

theorem yields_get_bind {R : β → σ → Prop} {f : σ → Method σ ε β} (h : Yields (f s) s R) :
    Yields (get >>= f) s R :=
  yields_bind (Q := fun a t => a = s ∧ t = s) (yields_get ⟨rfl, rfl⟩) fun _ _ ⟨ha, ht⟩ => ha ▸ ht ▸ h

theorem yields_expect_bind {R : β → σ → Prop} {message : String} {o : Option α}
    {f : α → Method σ ε β} (h : ∀ a, o = some a → Yields (f a) s R) :
    Yields (expect message o >>= f) s R :=
  yields_bind (Q := fun a t => o = some a ∧ t = s) (yields_expect fun _ ha => ⟨ha, rfl⟩)
    fun _ _ ⟨ha, ht⟩ => ht ▸ h _ ha

theorem yields_set_bind {R : β → σ → Prop} {f : PUnit → Method σ ε β} (h : Yields (f ⟨⟩) t R) :
    Yields (set t >>= f) s R :=
  yields_bind (Q := fun _ u => u = t) (yields_set rfl) fun _ _ hu => hu ▸ h

theorem yields_modify_bind {R : β → σ → Prop} {g : σ → σ} {f : PUnit → Method σ ε β}
    (h : Yields (f ⟨⟩) (g s) R) : Yields (modify g >>= f) s R :=
  yields_bind (Q := fun _ u => u = g s) (yields_modify rfl) fun _ _ hu => hu ▸ h

theorem yields_guard {R : β → σ → Prop} {c : Prop} [Decidable c] {message : String}
    {f : PUnit → Method σ ε β} (h : ¬c → Yields (f ⟨⟩) s R) :
    Yields (if c then panics message >>= f else f ⟨⟩) s R := by
  split
  · exact yields_bind (yields_panics (P := fun _ _ => False) message) fun _ _ no => no.elim
  · exact h ‹_›

/-- A loop keeps an invariant that knows what is left to do. -/
theorem yields_forM {I : List ι → σ → Prop} {f : ι → Method σ ε PUnit} {is : List ι}
    (step : ∀ i rest t, i ∈ is → I (i :: rest) t → Yields (f i) t fun _ u => I rest u) (h : I is s) :
    Yields (is.forM f) s fun _ t => I [] t := by
  induction is generalizing s with
  | nil => exact yields_pure h
  | cons i is ih =>
    rw [List.forM]
    exact yields_bind (step i is s List.mem_cons_self h) fun _ t ht =>
      ih (fun j rest t hj => step j rest t (List.mem_cons_of_mem i hj)) ht

end MethodOutcomes
