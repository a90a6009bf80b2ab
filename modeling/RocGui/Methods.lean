import Mathlib.Tactic.Common

/-! Methods of a mutable receiver: a call returns, refuses with an error, or panics.
What it wrote before refusing stays written. -/
namespace Methods

inductive Failure (ε : Type) where
  | error (reason : ε)
  | panic (message : String)
  /-- A loop that does not end. -/
  | diverges
  deriving DecidableEq, Repr

abbrev Method (σ ε α : Type) := EStateM (Failure ε) σ α

variable {σ ε ε' α β ι : Type}

def refuse (reason : ε) : Method σ ε α := throw (.error reason)

def panics (message : String) : Method σ ε α := throw (.panic message)

/-- `Option::expect`. -/
def expect (message : String) : Option α → Method σ ε α
  | some a => pure a
  | none => panics message

@[simp] theorem refuse_run (reason : ε) (s : σ) :
    (refuse reason : Method σ ε α).run s = .error (.error reason) s := rfl

@[simp] theorem expect_run (message : String) (a : α) (s : σ) :
    (expect message (some a) : Method σ ε α).run s = .ok a s := rfl

@[simp] theorem expect_none_run (message : String) (s : σ) :
    (expect message none : Method σ ε α).run s = .error (.panic message) s := rfl

def Failure.mapError (f : ε → ε') : Failure ε → Failure ε'
  | .error reason => .error (f reason)
  | .panic message => .panic message
  | .diverges => .diverges

def mapError (f : ε → ε') (m : Method σ ε α) : Method σ ε' α := m.adaptExcept (Failure.mapError f)

@[simp] theorem ofExcept_ok (a : α) : (MonadExcept.ofExcept (.ok a) : Method σ ε α) = pure a := rfl

@[simp] theorem ofExcept_error_run (e : Failure ε) (s : σ) :
    (MonadExcept.ofExcept (.error e) : Method σ ε α).run s = .error e s := rfl

def after {δ : Type} : EStateM.Result δ σ α → σ
  | .ok _ s | .error _ s => s

@[simp] theorem after_ok {δ : Type} (a : α) (s : σ) :
    after (.ok a s : EStateM.Result δ σ α) = s := rfl

@[simp] theorem after_error {δ : Type} (e : δ) (s : σ) :
    after (.error e s : EStateM.Result δ σ α) = s := rfl

def answer {δ : Type} : EStateM.Result δ σ α → Except δ α
  | .ok a _ => .ok a
  | .error e _ => .error e

theorem answer_error {δ : Type} {r : EStateM.Result δ σ α} {e : δ} (h : answer r = .error e) :
    r = .error e (after r) := by
  cases r with
  | ok a s => cases h
  | error e' s =>
    cases h
    rfl

theorem answer_is_ok {δ : Type} {r : EStateM.Result δ σ α} (h : (answer r).isOk = true) :
    ∃ a, r = .ok a (after r) := by
  cases r with
  | ok a t => exact ⟨a, rfl⟩
  | error e t => cases h

theorem answer_ok {δ : Type} {r : EStateM.Result δ σ α} {a : α} (h : answer r = .ok a) :
    r = .ok a (after r) := by
  cases r with
  | ok a' s =>
    cases h
    rfl
  | error e s => cases h

/-- Every call keeps `P`, also when it refuses or panics halfway. -/
def Preserves (P : σ → Prop) (m : Method σ ε α) : Prop := ∀ s, P s → P (after (m.run s))

section Preserves

variable {P : σ → Prop}

theorem preserves_pure (a : α) : Preserves P (pure a : Method σ ε α) := fun _ h => h

theorem preserves_throw (e : Failure ε) : Preserves P (throw e : Method σ ε α) := fun _ h => h

theorem preserves_get : Preserves P (get : Method σ ε σ) := fun _ h => h

theorem preserves_modify {f : σ → σ} (h : ∀ s, P s → P (f s)) :
    Preserves P (modify f : Method σ ε PUnit) := h

theorem preserves_bind {m : Method σ ε α} {f : α → Method σ ε β} (hm : Preserves P m)
    (hf : ∀ a, Preserves P (f a)) : Preserves P (m >>= f) := by
  intro s hs
  have ht := hm s hs
  rw [EStateM.run_bind]
  cases h : m.run s with
  | ok a t => exact hf a t (by rwa [h] at ht)
  | error e t => rwa [h] at ht

theorem preserves_expect (message : String) (o : Option α) :
    Preserves P (expect message o : Method σ ε α) := by
  cases o with
  | none => exact preserves_throw _
  | some a => exact preserves_pure a

theorem preserves_ofExcept (r : Except (Failure ε) α) :
    Preserves P (MonadExcept.ofExcept r : Method σ ε α) := by
  cases r with
  | ok a => exact preserves_pure a
  | error e => exact preserves_throw e

theorem preserves_mapError {m : Method σ ε α} (f : ε → ε') (h : Preserves P m) :
    Preserves P (mapError f m) := by
  intro s hs
  have ht := h s hs
  rw [mapError, EStateM.run_adaptExcept]
  cases k : m.run s <;> rwa [k] at ht

theorem preserves_foldlM {f : β → ι → Method σ ε β} (h : ∀ b i, Preserves P (f b i)) (b : β)
    (is : List ι) : Preserves P (is.foldlM f b) := by
  induction is generalizing b with
  | nil => exact preserves_pure b
  | cons i is ih => exact preserves_bind (h b i) ih

theorem preserves_forM {f : ι → Method σ ε PUnit} (h : ∀ i, Preserves P (f i)) (is : List ι) :
    Preserves P (is.forM f) := by
  induction is with
  | nil => exact preserves_pure _
  | cons i is ih => exact preserves_bind (h i) fun _ => ih

end Preserves

/-- No call refuses: it returns, panics or runs on. -/
def NeverRefuses (m : Method σ ε α) : Prop := ∀ s e t, m.run s ≠ .error (.error e) t

section NeverRefuses

theorem neverRefuses_pure (a : α) : NeverRefuses (pure a : Method σ ε α) := by
  rintro s e t ⟨⟩

theorem neverRefuses_modify (f : σ → σ) : NeverRefuses (modify f : Method σ ε PUnit) := by
  rintro s e t ⟨⟩

theorem neverRefuses_get : NeverRefuses (get : Method σ ε σ) := by
  rintro s e t ⟨⟩

theorem neverRefuses_panics (message : String) : NeverRefuses (panics message : Method σ ε α) := by
  rintro s e t ⟨⟩

theorem neverRefuses_diverges : NeverRefuses (throw .diverges : Method σ ε α) := by
  rintro s e t ⟨⟩

theorem neverRefuses_expect (message : String) (o : Option α) :
    NeverRefuses (expect message o : Method σ ε α) := by
  cases o with
  | none => exact neverRefuses_panics message
  | some a => exact neverRefuses_pure a

theorem neverRefuses_ofExcept {r : Except (Failure ε) α} (h : ∀ e, r ≠ .error (.error e)) :
    NeverRefuses (MonadExcept.ofExcept r : Method σ ε α) := by
  cases r with
  | ok a => exact neverRefuses_pure a
  | error e =>
    rintro s e' t h'
    rw [ofExcept_error_run] at h'
    cases h'
    exact h e' rfl

theorem neverRefuses_bind {m : Method σ ε α} {f : α → Method σ ε β} (hm : NeverRefuses m)
    (hf : ∀ a, NeverRefuses (f a)) : NeverRefuses (m >>= f) := by
  intro s e t h
  rw [EStateM.run_bind] at h
  cases k : m.run s with
  | ok a u =>
    rw [k] at h
    exact hf a u e t h
  | error e' u =>
    rw [k] at h
    cases h
    exact hm s e t k

theorem neverRefuses_foldlM {f : β → ι → Method σ ε β} (h : ∀ b i, NeverRefuses (f b i)) (b : β)
    (is : List ι) : NeverRefuses (is.foldlM f b) := by
  induction is generalizing b with
  | nil => exact neverRefuses_pure b
  | cons i is ih => exact neverRefuses_bind (h b i) ih

theorem neverRefuses_forM {f : ι → Method σ ε PUnit} (h : ∀ i, NeverRefuses (f i)) (is : List ι) :
    NeverRefuses (is.forM f) := by
  induction is with
  | nil => exact neverRefuses_pure _
  | cons i is ih => exact neverRefuses_bind (h i) fun _ => ih

end NeverRefuses

theorem except_bind_ok {δ : Type} {r : Except δ α} {f : α → Except δ β} {b : β} :
    (r >>= f) = .ok b ↔ ∃ a, r = .ok a ∧ f a = .ok b := by
  cases r with
  | ok a => simp [bind, Except.bind]
  | error e => simp [bind, Except.bind]

theorem except_mapError_ok {δ δ' : Type} {f : δ → δ'} {r : Except δ α} {a : α} :
    r.mapError f = .ok a ↔ r = .ok a := by
  cases r with
  | ok b => simp [Except.mapError]
  | error e => simp [Except.mapError]

theorem except_guard_ok {δ : Type} {c : Prop} [Decidable c] {e : δ} {f : PUnit → Except δ β} {b : β} :
    (if c then throw e >>= f else f ⟨⟩) = .ok b ↔ ¬c ∧ f ⟨⟩ = .ok b := by
  by_cases h : c
  · simp [h, throw, throwThe, MonadExceptOf.throw, bind, Except.bind]
  · simp [h]

theorem bind_ok {m : Method σ ε α} {f : α → Method σ ε β} {s u : σ} {b : β} :
    (m >>= f).run s = .ok b u ↔ ∃ a t, m.run s = .ok a t ∧ (f a).run t = .ok b u := by
  rw [EStateM.run_bind]
  constructor
  · intro h
    cases k : m.run s with
    | ok a t => exact ⟨a, t, rfl, by rwa [k] at h⟩
    | error e t => simp [k] at h
  · rintro ⟨a, t, hm, hf⟩
    rw [hm]
    exact hf

theorem forM_nil_ok {f : ι → Method σ ε PUnit} {s t : σ} {u : PUnit} :
    (([] : List ι).forM f).run s = .ok u t ↔ s = t := by
  rw [List.forM, EStateM.run_pure, EStateM.Result.ok.injEq]
  exact and_iff_right rfl

theorem forM_cons_ok {f : ι → Method σ ε PUnit} {i : ι} {is : List ι} {s u : σ} {v : PUnit} :
    ((i :: is).forM f).run s = .ok v u ↔
      ∃ t, (f i).run s = .ok ⟨⟩ t ∧ (is.forM f).run t = .ok v u := by
  rw [List.forM, bind_ok]
  constructor
  · rintro ⟨_, t, h, h'⟩
    exact ⟨t, h, h'⟩
  · rintro ⟨t, h, h'⟩
    exact ⟨_, t, h, h'⟩

theorem foldlM_nil_ok {f : β → ι → Method σ ε β} {b c : β} {s t : σ} :
    (([] : List ι).foldlM f b).run s = .ok c t ↔ b = c ∧ s = t := by
  rw [List.foldlM_nil, EStateM.run_pure, EStateM.Result.ok.injEq]

theorem foldlM_cons_ok {f : β → ι → Method σ ε β} {i : ι} {is : List ι} {b c : β} {s u : σ} :
    ((i :: is).foldlM f b).run s = .ok c u ↔
      ∃ d t, (f b i).run s = .ok d t ∧ (is.foldlM f d).run t = .ok c u := by
  rw [List.foldlM_cons, bind_ok]

theorem pure_ok {a b : α} {s t : σ} :
    (pure a : Method σ ε α).run s = .ok b t ↔ a = b ∧ s = t := by
  rw [EStateM.run_pure, EStateM.Result.ok.injEq]

theorem get_ok {s t u : σ} : (get : Method σ ε σ).run s = .ok t u ↔ s = t ∧ s = u := by
  rw [EStateM.run_get, EStateM.Result.ok.injEq]

theorem modify_ok {f : σ → σ} {s t : σ} {u : PUnit} :
    (modify f : Method σ ε PUnit).run s = .ok u t ↔ t = f s := by
  rw [EStateM.run_modify, EStateM.Result.ok.injEq, @eq_comm _ (f s)]
  exact and_iff_right rfl

theorem expect_ok {message : String} {o : Option α} {a : α} {s t : σ} :
    (expect message o : Method σ ε α).run s = .ok a t ↔ o = some a ∧ s = t := by
  cases o with
  | none => simp
  | some b => simp

theorem ofExcept_run_ok {r : Except (Failure ε) α} {a : α} {s t : σ} :
    (MonadExcept.ofExcept r : Method σ ε α).run s = .ok a t ↔ r = .ok a ∧ s = t := by
  cases r with
  | error e => simp
  | ok b => simp

theorem mapError_run_ok {f : ε → ε'} {m : Method σ ε α} {a : α} {s t : σ} :
    (mapError f m).run s = .ok a t ↔ m.run s = .ok a t := by
  simp only [mapError, EStateM.run, EStateM.adaptExcept]
  cases m s with
  | ok b u => simp
  | error e u => simp

theorem kept_of_preserves {τ : Type} {φ : σ → τ} {m : Method σ ε α}
    (h : ∀ c, Preserves (fun s => φ s = c) m) {s t : σ} {a : α} (hrun : m.run s = .ok a t) :
    φ t = φ s := by
  have := h (φ s) s rfl
  rwa [hrun] at this

theorem run_bind_ok {m : Method σ ε α} {f : α → Method σ ε β} {s t : σ} {a : α}
    (h : m.run s = .ok a t) : (m >>= f).run s = (f a).run t := by
  rw [EStateM.run_bind, h]

theorem run_bind_error {m : Method σ ε α} {f : α → Method σ ε β} {s t : σ} {e : Failure ε}
    (h : m.run s = .error e t) : (m >>= f).run s = .error e t := by
  rw [EStateM.run_bind, h]

end Methods
