import RocGui.Methods

/-! What methods can return, whatever the state they are run in. -/
namespace MethodAnswers

open Methods

variable {σ ε α β ι : Type}

/-- The method can return `x`. -/
def Answers (m : Method σ ε α) (x : α) : Prop := ∃ s s', m.run s = .ok x s'

theorem answers_bind {m : Method σ ε α} {f : α → Method σ ε β} {y : β}
    (h : Answers (m >>= f) y) : ∃ x, Answers m x ∧ Answers (f x) y := by
  obtain ⟨s, s', h⟩ := h
  obtain ⟨x, t, hm, hf⟩ := bind_ok.mp h
  exact ⟨x, ⟨s, t, hm⟩, ⟨t, s', hf⟩⟩

theorem answers_pure {x y : α} (h : Answers (pure x : Method σ ε α) y) : x = y := by
  obtain ⟨s, s', h⟩ := h
  exact (pure_ok.mp h).1

theorem not_answers_throw {e : Failure ε} {x : α} : ¬Answers (throw e : Method σ ε α) x := by
  rintro ⟨s, s', ⟨⟩⟩

theorem not_answers_panics {message : String} {x : α} :
    ¬Answers (panics message : Method σ ε α) x := not_answers_throw

theorem answers_expect {message : String} {o : Option α} {x : α}
    (h : Answers (expect message o : Method σ ε α) x) : o = some x := by
  obtain ⟨s, s', h⟩ := h
  exact (expect_ok.mp h).1

theorem answers_ofExcept {r : Except (Failure ε) α} {x : α}
    (h : Answers (MonadExcept.ofExcept r : Method σ ε α) x) : r = .ok x := by
  obtain ⟨s, s', h⟩ := h
  exact (ofExcept_run_ok.mp h).1

theorem answers_guard {c : Prop} [Decidable c] {message : String} {f : PUnit → Method σ ε α}
    {x : α} (h : Answers (if c then panics message >>= f else f ⟨⟩) x) :
    ¬c ∧ Answers (f ⟨⟩) x := by
  split at h
  · obtain ⟨_, h, -⟩ := answers_bind h
    exact absurd h not_answers_panics
  · exact ⟨‹_›, h⟩

theorem answers_foldlM {P : β → Prop} {f : β → ι → Method σ ε β} {is : List ι}
    (step : ∀ b, ∀ i ∈ is, ∀ b', P b → Answers (f b i) b' → P b') {b b' : β} (hb : P b)
    (h : Answers (is.foldlM f b) b') : P b' := by
  induction is generalizing b with
  | nil =>
    rw [List.foldlM_nil] at h
    exact answers_pure h ▸ hb
  | cons i is ih =>
    rw [List.foldlM_cons] at h
    obtain ⟨c, hc, h⟩ := answers_bind h
    exact ih (fun b j hj => step b j (List.mem_cons_of_mem i hj))
      (step b i List.mem_cons_self c hb hc) h

end MethodAnswers
