import RocGui.ThreadSystems
import Mathlib.Data.List.Basic

/-! Reads of a terminal's output by any tasks: each wait, each read of the terminal and each
access of a shared flag is a step. -/
namespace ProcessReads

open Transitions ThreadSystems

section Model

abbrev Bytes := List UInt8

def maxIoBytes : ℕ := 65536

/-- How much one read of the terminal asks for at most. -/
def chunkBytes : ℕ := 8192

inductive Reason where
  | accessDenied | busy | exited | invalidCapability | invalidSize | io | resourceLimit | revoked
  | unsupported
  deriving DecidableEq

inductive Answer where
  | data (bytes : Bytes)
  | endOfFile
  | canceled
  | failed (reason : Reason)
  deriving DecidableEq

/-- A process, with the answers its reads have given, each with the limit it was asked with. -/
structure Pty where
  taken : ℕ
  canceled : Bool
  exited : Bool
  reading : Bool
  readBytes : ℕ
  answers : List (ℕ × Answer)

inductive Call where
  | idle
  | entering (limit : ℕ)
  | checking (limit : ℕ) (collected : Bytes)
  | waiting (limit : ℕ) (collected : Bytes)
  | reading (limit : ℕ) (collected : Bytes)
  | leaving
  | canceling
  deriving DecidableEq

inductive Wait where
  | error
  /-- Nothing came, and whether the hold has lasted long enough. -/
  | quiet (held : Bool)
  | ready

inductive Read where
  | error
  | nothing
  | data (count : ℕ)

inductive Action where
  /-- A read, refused by the lookup of its handle or not. -/
  | read (limit : ℕ) (refused : Option Reason)
  | swap
  | check
  | wait (outcome : Wait)
  | take (outcome : Read)
  | leave
  | cancel
  | stop
  /-- The last handle is released. -/
  | release
  /-- The count of active processes finds that the child has exited. -/
  | exit

def answer (p : Pty) (limit : ℕ) (answer : Answer) : Pty :=
  { p with answers := p.answers ++ [(limit, answer)] }

/-- `data` -/
def deliver (p : Pty) (limit : ℕ) (collected : Bytes) : Pty :=
  { answer p limit (.data collected) with readBytes := p.readBytes + collected.length }

def advance (worth : Bytes → Bool) (stream : Bytes) (p : Pty) : Call → Action → Option (Call × Pty)
  | .idle, .read limit refused =>
    match refused with
    | some reason => some (.idle, answer p limit (.failed reason))
    | none =>
      if limit = 0 ∨ limit > maxIoBytes then some (.idle, answer p limit (.failed .resourceLimit))
      else some (.entering limit, p)
  | .entering limit, .swap =>
    if p.reading then some (.idle, answer p limit (.failed .busy))
    else some (.checking limit [], { p with reading := true })
  | .checking limit collected, .check =>
    if p.canceled then some (.leaving, answer p limit .canceled)
    else some (.waiting limit collected, p)
  | .waiting limit collected, .wait outcome =>
    match outcome with
    | .error => some (.leaving, answer p limit (.failed .io))
    | .quiet held =>
      if collected = [] then some (.checking limit collected, p)
      else if !worth collected then
        if held then some (.leaving, deliver p limit collected) else some (.checking limit collected, p)
      else some (.leaving, deliver p limit collected)
    | .ready => some (.reading limit collected, p)
  | .reading limit collected, .take outcome =>
    match outcome with
    | .error => some (.leaving, answer p limit (.failed .io))
    | .nothing =>
      if collected = [] then some (.leaving, { answer p limit .endOfFile with exited := true })
      else some (.leaving, deliver p limit collected)
    | .data count =>
      if 0 < count ∧ count ≤ min (limit - collected.length) chunkBytes ∧
          p.taken + count ≤ stream.length then
        let all := collected ++ (stream.drop p.taken).take count
        let p := { p with taken := p.taken + count }
        if all.length = limit then some (.leaving, deliver p limit all)
        else some (.checking limit all, p)
      else none
  | .leaving, .leave => some (.idle, { p with reading := false })
  | .idle, .cancel => if p.exited then some (.idle, p) else some (.canceling, p)
  | .canceling, .stop => some (.idle, { p with canceled := true })
  | .idle, .release => some (.idle, { p with canceled := true })
  | .idle, .exit => some (.idle, { p with exited := true })
  | _, _ => none

def spawned : Pty := ⟨0, false, false, false, 0, []⟩

def readSystem (worth : Bytes → Bool) (stream : Bytes) : System (ThreadState Pty Call) (ℕ × Action) :=
  threadSystem (advance worth stream) ⟨spawned, fun _ => .idle⟩

end Model

section Properties

def Call.collected : Call → Bytes
  | .checking _ collected | .waiting _ collected | .reading _ collected => collected
  | _ => []

def Call.inside : Call → Bool
  | .checking .. | .waiting .. | .reading .. | .leaving => true
  | _ => false

def delivered (answers : List (ℕ × Answer)) : Bytes := answers.flatMap fun given =>
  match given.2 with
  | .data bytes => bytes
  | _ => []

/-- What the host has read is what was answered and, while a task reads, what that task has
collected. -/
structure ReadsWhole (stream : Bytes) (s : ThreadState Pty Call) : Prop where
  inside : ∀ i, (s.calls i).inside = true → s.shared.canceled = false →
    delivered s.shared.answers ++ (s.calls i).collected = stream.take s.shared.taken
  outside : (∀ i, (s.calls i).inside = false) → s.shared.canceled = false →
    delivered s.shared.answers = stream.take s.shared.taken
  bounded : ∀ limit bytes, (limit, .data bytes) ∈ s.shared.answers → bytes.length ≤ limit
  alone : ∀ i j, (s.calls i).inside = true → (s.calls j).inside = true → i = j

def Action.fails : Action → Bool
  | .wait .error | .take .error => true
  | _ => false

/-- While the process is not canceled, only a task that has collected nothing has its wait or
its read of the terminal fail. -/
def Steady (s : ThreadState Pty Call) (e : ℕ × Action) : Prop :=
  e.2.fails = true → (s.calls e.1).collected = [] ∨ s.shared.canceled = true

instance (s : ThreadState Pty Call) (e : ℕ × Action) : Decidable (Steady s e) :=
  inferInstanceAs (Decidable (_ → _))

end Properties

section Moves

variable {worth : Bytes → Bool} {stream : Bytes} {p p' : Pty} {call call' : Call} {action : Action}

def Call.Roomy : Call → Prop
  | .entering limit => 0 < limit
  | .checking limit collected | .waiting limit collected | .reading limit collected =>
    collected.length < limit
  | _ => True

structure Moves (stream : Bytes) (p : Pty) (call call' : Call) (p' : Pty) : Prop where
  canceled : p.canceled = true → p'.canceled = true
  taken : p.taken ≤ p'.taken
  conserved : p'.canceled = false → delivered p'.answers ++ call'.collected =
    delivered p.answers ++ call.collected ++ (stream.drop p.taken).take (p'.taken - p.taken)
  enters : call.inside = false → call'.inside = true → p.reading = false ∧ p'.reading = true ∧
    p'.taken = p.taken
  stays : call.inside = true → call'.inside = true → p'.reading = p.reading
  apart : call.inside = false → call'.inside = false → p'.reading = p.reading ∧ p'.taken = p.taken
  roomy : call.Roomy → call'.Roomy
  bounded : call.Roomy → ∀ limit bytes, (limit, .data bytes) ∈ p'.answers →
    (limit, .data bytes) ∈ p.answers ∨ bytes.length ≤ limit

theorem delivered_answer (p : Pty) (limit : ℕ) (given : Answer) :
    delivered (answer p limit given).answers = delivered p.answers ++ delivered [(limit, given)] :=
  List.flatMap_append

theorem delivered_data (p : Pty) (limit : ℕ) (bytes : Bytes) :
    delivered (deliver p limit bytes).answers = delivered p.answers ++ bytes := by
  rw [deliver, delivered_answer]
  simp [delivered]

theorem mem_answer {limit limit' : ℕ} {given : Answer} {bytes : Bytes}
    (h : (limit, .data bytes) ∈ (answer p limit' given).answers) :
    (limit, .data bytes) ∈ p.answers ∨ limit = limit' ∧ given = .data bytes := by
  refine (List.mem_append.mp h).imp_right fun h => ?_
  obtain ⟨rfl, rfl⟩ := Prod.mk.inj (List.mem_singleton.mp h)
  exact ⟨rfl, rfl⟩

theorem moves_refused (limit : ℕ) {given : Answer} (hgiven : ∀ bytes, given ≠ .data bytes)
    (outside : call.inside = false) (outside' : call'.inside = false)
    (hempty : call.collected = []) (hempty' : call'.collected = []) (room : call'.Roomy) :
    Moves stream p call call' (answer p limit given) where
  canceled := id
  taken := Nat.le_refl _
  conserved _ := by
    have hnone : delivered [(limit, given)] = [] := by
      cases given with
      | data bytes => exact absurd rfl (hgiven bytes)
      | _ => rfl
    have hsame : (answer p limit given).taken = p.taken := rfl
    rw [delivered_answer, hnone, hempty, hempty', hsame, Nat.sub_self]
    simp
  enters _ h := by rw [outside'] at h; cases h
  stays h := by rw [outside] at h; cases h
  apart _ _ := ⟨rfl, rfl⟩
  roomy _ := room
  bounded _ _ _ h := (mem_answer h).imp_right fun h => absurd h.2 (hgiven _)

theorem moves_ended (limit : ℕ) {given : Answer} (hgiven : ∀ bytes, given ≠ .data bytes)
    (inside : call.inside = true) (h : call.collected = [] ∨ p.canceled = true) :
    Moves stream p call .leaving (answer p limit given) where
  canceled := id
  taken := Nat.le_refl _
  conserved hcanceled := by
    have hnone : delivered [(limit, given)] = [] := by
      cases given with
      | data bytes => exact absurd rfl (hgiven bytes)
      | _ => rfl
    have hempty := h.resolve_right (by rw [show p.canceled = false from hcanceled]; simp)
    have hsame : (answer p limit given).taken = p.taken := rfl
    rw [delivered_answer, hnone, hempty, hsame, Nat.sub_self]
    simp [Call.collected]
  enters h := by rw [inside] at h; cases h
  stays _ _ := rfl
  apart h := by rw [inside] at h; cases h
  roomy _ := trivial
  bounded _ _ _ h := (mem_answer h).imp_right fun h => absurd h.2 (hgiven _)

theorem moves_delivered {limit : ℕ} {collected : Bytes} (inside : call.inside = true)
    (hcollected : call.collected = collected) (room : call.Roomy → collected.length ≤ limit) :
    Moves stream p call .leaving (deliver p limit collected) where
  canceled := id
  taken := Nat.le_refl _
  conserved _ := by
    rw [delivered_data, hcollected]
    have : (deliver p limit collected).taken = p.taken := rfl
    rw [this, Nat.sub_self]
    simp [Call.collected]
  enters h := by rw [inside] at h; cases h
  stays _ _ := rfl
  apart h := by rw [inside] at h; cases h
  roomy _ := trivial
  bounded hroom _ _ h := (mem_answer h).imp_right fun h => by
    obtain ⟨rfl, hsame⟩ := h
    obtain rfl := Answer.data.inj hsame
    exact room hroom

theorem moves_on (same : call'.inside = call.inside) (hcollected : call'.collected = call.collected)
    (room : call.Roomy → call'.Roomy) : Moves stream p call call' p where
  canceled := id
  taken := Nat.le_refl _
  conserved _ := by
    rw [hcollected, Nat.sub_self]
    simp
  enters h h' := by rw [same, h] at h'; cases h'
  stays _ _ := rfl
  apart _ _ := ⟨rfl, rfl⟩
  roomy := room
  bounded _ _ _ := .inl

theorem moves_collected {limit count : ℕ} {collected : Bytes}
    (bound : count ≤ limit - collected.length)
    (short : (collected ++ (stream.drop p.taken).take count).length ≠ limit) :
    Moves stream p (.reading limit collected)
      (.checking limit (collected ++ (stream.drop p.taken).take count))
      { p with taken := p.taken + count } where
  canceled := id
  taken := Nat.le_add_right _ _
  conserved _ := by
    have hcount : p.taken + count - p.taken = count := Nat.add_sub_cancel_left _ _
    change delivered p.answers ++ (collected ++ _) = delivered p.answers ++ collected ++
      (stream.drop p.taken).take (p.taken + count - p.taken)
    rw [hcount, List.append_assoc]
  enters h := by cases h
  stays _ _ := rfl
  apart h := by cases h
  roomy hroom := by
    have hroom : collected.length < limit := hroom
    have htake := List.length_take_le count (stream.drop p.taken)
    have hlength : (collected ++ (stream.drop p.taken).take count).length =
        collected.length + ((stream.drop p.taken).take count).length := List.length_append
    exact Nat.lt_of_le_of_ne (by omega) short
  bounded _ _ _ := .inl

theorem moves_filled {limit count : ℕ} {collected : Bytes}
    (full : (collected ++ (stream.drop p.taken).take count).length = limit) :
    Moves stream p (.reading limit collected) .leaving
      (deliver { p with taken := p.taken + count } limit
        (collected ++ (stream.drop p.taken).take count)) where
  canceled := id
  taken := Nat.le_add_right _ _
  conserved _ := by
    have hcount : p.taken + count - p.taken = count := Nat.add_sub_cancel_left _ _
    rw [delivered_data]
    change delivered p.answers ++ (collected ++ _) ++ [] = delivered p.answers ++ collected ++
      (stream.drop p.taken).take (p.taken + count - p.taken)
    rw [hcount, List.append_nil, List.append_assoc]
  enters h := by cases h
  stays _ _ := rfl
  apart h := by cases h
  roomy _ := trivial
  bounded _ _ _ h := (mem_answer h).imp_right fun h => by
    obtain ⟨rfl, hsame⟩ := h
    obtain rfl := Answer.data.inj hsame
    exact Nat.le_of_eq full

theorem moves_same (outside : call.inside = false) (outside' : call'.inside = false)
    (hempty : call.collected = []) (hempty' : call'.collected = []) (room : call'.Roomy)
    (hcanceled : p.canceled = true → p'.canceled = true) (htaken : p'.taken = p.taken)
    (hanswers : p'.answers = p.answers) (hreading : p'.reading = p.reading) :
    Moves stream p call call' p' where
  canceled := hcanceled
  taken := Nat.le_of_eq htaken.symm
  conserved _ := by
    rw [hempty, hempty', hanswers, htaken, Nat.sub_self]
    simp
  enters _ h := by rw [outside'] at h; cases h
  stays h := by rw [outside] at h; cases h
  apart _ _ := ⟨hreading, htaken⟩
  roomy _ := room
  bounded _ _ _ h := by rw [hanswers] at h; exact .inl h

theorem moves_entered {limit : ℕ} (hfree : p.reading = false) :
    Moves stream p (.entering limit) (.checking limit []) { p with reading := true } where
  canceled := id
  taken := Nat.le_refl _
  conserved _ := by
    change delivered p.answers ++ [] = delivered p.answers ++ [] ++
      (stream.drop p.taken).take (p.taken - p.taken)
    rw [Nat.sub_self, List.take_zero, List.append_nil, List.append_nil]
  enters _ _ := ⟨hfree, rfl, rfl⟩
  stays h := by cases h
  apart _ h := by cases h
  roomy h := h
  bounded _ _ _ := .inl

theorem moves_exited (h : Moves stream p call call' p') :
    Moves stream p call call' { p' with exited := true } where
  canceled := h.canceled
  taken := h.taken
  conserved := h.conserved
  enters := h.enters
  stays := h.stays
  apart := h.apart
  roomy := h.roomy
  bounded := h.bounded

theorem moves_left : Moves stream p .leaving .idle { p with reading := false } where
  canceled := id
  taken := Nat.le_refl _
  conserved _ := by
    change delivered p.answers ++ [] = delivered p.answers ++ [] ++
      (stream.drop p.taken).take (p.taken - p.taken)
    rw [Nat.sub_self, List.take_zero, List.append_nil, List.append_nil]
  enters h := by cases h
  stays _ h := by cases h
  apart h := by cases h
  roomy _ := trivial
  bounded _ _ _ := .inl

theorem advance_moves (h : advance worth stream p call action = some (call', p'))
    (steady : action.fails = true → call.collected = [] ∨ p.canceled = true) :
    Moves stream p call call' p' := by
  cases call with
  | idle =>
    cases action with
    | read limit refused =>
      cases refused with
      | some reason =>
        cases h
        exact moves_refused limit nofun rfl rfl rfl rfl trivial
      | none =>
        simp only [advance] at h
        split at h
        · cases h
          exact moves_refused limit nofun rfl rfl rfl rfl trivial
        · rename_i hsize
          cases h
          exact moves_same rfl rfl rfl rfl (show 0 < limit by omega) id rfl rfl rfl
    | cancel =>
      simp only [advance] at h
      split at h <;> cases h <;> exact moves_same rfl rfl rfl rfl trivial id rfl rfl rfl
    | release => cases h; exact moves_same rfl rfl rfl rfl trivial (fun _ => rfl) rfl rfl rfl
    | exit => cases h; exact moves_same rfl rfl rfl rfl trivial id rfl rfl rfl
    | _ => cases h
  | entering limit =>
    cases action with
    | swap =>
      simp only [advance] at h
      split at h
      · cases h
        exact moves_refused limit nofun rfl rfl rfl rfl trivial
      · rename_i hfree
        cases h
        exact moves_entered (by simpa using hfree)
    | _ => cases h
  | checking limit collected =>
    cases action with
    | check =>
      simp only [advance] at h
      split at h
      · rename_i hcanceled
        cases h
        exact moves_ended limit nofun rfl (.inr hcanceled)
      · cases h
        exact moves_on rfl rfl id
    | _ => cases h
  | waiting limit collected =>
    cases action with
    | wait outcome =>
      cases outcome with
      | error =>
        cases h
        exact moves_ended limit nofun rfl (steady rfl)
      | ready =>
        cases h
        exact moves_on rfl rfl id
      | quiet held =>
        have hdeliver : Moves stream p (.waiting limit collected) .leaving
            (deliver p limit collected) := moves_delivered rfl rfl Nat.le_of_lt
        simp only [advance] at h
        split at h
        · cases h
          exact moves_on rfl rfl id
        · split at h
          · split at h
            · cases h
              exact hdeliver
            · cases h
              exact moves_on rfl rfl id
          · cases h
            exact hdeliver
    | _ => cases h
  | reading limit collected =>
    cases action with
    | take outcome =>
      cases outcome with
      | error =>
        cases h
        exact moves_ended limit nofun rfl (steady rfl)
      | nothing =>
        simp only [advance] at h
        split at h
        · rename_i hempty
          cases h
          exact moves_exited (moves_ended limit nofun rfl (.inl hempty))
        · cases h
          exact moves_delivered rfl rfl Nat.le_of_lt
      | data count =>
        simp only [advance] at h
        split at h
        · split at h
          · rename_i hfull
            cases h
            exact moves_filled hfull
          · rename_i hcount hshort
            cases h
            exact moves_collected (Nat.le_trans hcount.2.1 (Nat.min_le_left _ _)) hshort
        · cases h
    | _ => cases h
  | leaving =>
    cases action with
    | leave => cases h; exact moves_left
    | _ => cases h
  | canceling =>
    cases action with
    | stop => cases h; exact moves_same rfl rfl rfl rfl trivial (fun _ => rfl) rfl rfl rfl
    | _ => cases h

end Moves

section Runs

variable {worth : Bytes → Bool} {stream : Bytes} {s t : ThreadState Pty Call} {e : ℕ × Action}

structure Kept (stream : Bytes) (s : ThreadState Pty Call) : Prop where
  whole : ReadsWhole stream s
  flagged : ∀ i, (s.calls i).inside = true → s.shared.reading = true
  roomy : ∀ i, (s.calls i).Roomy

theorem collected_outside {call : Call} (h : call.inside = false) : call.collected = [] := by
  cases call with
  | checking | waiting | reading => cases h
  | _ => rfl

/-- While nobody else is inside, what was answered and what this task has collected are all. -/
theorem Kept.so_far (h : Kept stream s) {k : ℕ} (canceled : s.shared.canceled = false)
    (only : ∀ i, i ≠ k → (s.calls i).inside = false) :
    delivered s.shared.answers ++ (s.calls k).collected = stream.take s.shared.taken := by
  cases hk : (s.calls k).inside with
  | true => exact h.whole.inside k hk canceled
  | false =>
    rw [collected_outside hk, List.append_nil]
    refine h.whole.outside (fun i => ?_) canceled
    by_cases hi : i = k
    · rw [hi, hk]
    · exact only i hi

theorem kept_started : Kept stream (readSystem worth stream).initial where
  whole :=
    { inside := fun _ h => by cases h
      outside := fun _ _ => rfl
      bounded := fun _ _ h => by cases h
      alone := fun _ _ h => by cases h }
  flagged _ h := by cases h
  roomy _ := trivial

/-- A step moves one task and leaves the others where they are. -/
structure Stepped (stream : Bytes) (k : ℕ) (s t : ThreadState Pty Call) : Prop where
  moves : Moves stream s.shared (s.calls k) (t.calls k) t.shared
  others : ∀ i, i ≠ k → t.calls i = s.calls i

theorem stepped_of_step (steady : Steady s e) (h : step (advance worth stream) s e = some t) :
    Stepped stream e.1 s t := by
  obtain ⟨k, action⟩ := e
  obtain ⟨call, hadvance, hcalls⟩ := step_cases h
  have own : t.calls k = call := by rw [hcalls, Function.update_self]
  refine ⟨?_, fun i hi => calls_step h hi⟩
  rw [own]
  exact advance_moves hadvance steady

variable {k : ℕ}

theorem Stepped.live (d : Stepped stream k s t) (h : t.shared.canceled = false) :
    s.shared.canceled = false := by
  by_contra hs
  rw [d.moves.canceled (by simpa using hs)] at h
  cases h

theorem Stepped.entered (d : Stepped stream k s t) (h : Kept stream s)
    (outside : (s.calls k).inside = false) (inside : (t.calls k).inside = true) (i : ℕ) :
    (s.calls i).inside = false := by
  have hfree := (d.moves.enters outside inside).1
  by_contra hi
  have := h.flagged i (by simpa using hi)
  rw [hfree] at this
  cases this

theorem Stepped.alone (d : Stepped stream k s t) (h : Kept stream s) (i j : ℕ)
    (hi : (t.calls i).inside = true) (hj : (t.calls j).inside = true) : i = j := by
  have own_only : ∀ i, (t.calls k).inside = true → (t.calls i).inside = true → i = k := by
    intro i hk hi
    by_contra hne
    rw [d.others i hne] at hi
    cases before : (s.calls k).inside with
    | true => exact hne (h.whole.alone i k hi before)
    | false =>
      rw [d.entered h before hk i] at hi
      cases hi
  by_cases hik : i = k
  · exact hik.trans (own_only j (hik ▸ hi) hj).symm
  by_cases hjk : j = k
  · exact (own_only i (hjk ▸ hj) hi).trans hjk.symm
  · rw [d.others i hik] at hi
    rw [d.others j hjk] at hj
    exact h.whole.alone i j hi hj

theorem Stepped.apart (d : Stepped stream k s t) (h : Kept stream s) {i : ℕ} (hne : i ≠ k)
    (hi : (t.calls i).inside = true) :
    (s.calls k).inside = false ∧ (t.calls k).inside = false := by
  have after : (t.calls k).inside = false := by
    by_contra hk
    exact hne (d.alone h i k hi (by simpa using hk))
  refine ⟨?_, after⟩
  by_contra before
  rw [d.others i hne] at hi
  exact hne (h.whole.alone i k hi (by simpa using before))

theorem Stepped.adds (d : Stepped stream k s t) (h : Kept stream s)
    (canceled : t.shared.canceled = false) (only : ∀ i, i ≠ k → (t.calls i).inside = false) :
    delivered t.shared.answers ++ (t.calls k).collected = stream.take t.shared.taken := by
  have hsplit : t.shared.taken = s.shared.taken + (t.shared.taken - s.shared.taken) :=
    (Nat.add_sub_cancel' d.moves.taken).symm
  have before := h.so_far (d.live canceled) fun i hi => d.others i hi ▸ only i hi
  rw [d.moves.conserved canceled, before, hsplit, Nat.add_sub_cancel_left, List.take_add]

theorem kept_step (d : Stepped stream k s t) (h : Kept stream s) : Kept stream t := by
  refine ⟨⟨?_, ?_, ?_, d.alone h⟩, ?_, ?_⟩
  · intro i hi canceled
    by_cases hik : i = k
    · subst hik
      refine d.adds h canceled fun j hj => ?_
      by_contra inside
      exact hj (d.alone h j i (by simpa using inside) hi)
    · obtain ⟨before, after⟩ := d.apart h hik hi
      have hconserved := d.moves.conserved canceled
      rw [collected_outside before, collected_outside after, (d.moves.apart before after).2,
        Nat.sub_self, List.take_zero, List.append_nil, List.append_nil, List.append_nil]
        at hconserved
      rw [d.others i hik] at hi ⊢
      rw [hconserved, (d.moves.apart before after).2]
      exact h.whole.inside i hi (d.live canceled)
  · intro houtside canceled
    have := d.adds h canceled fun i _ => houtside i
    rwa [collected_outside (houtside k), List.append_nil] at this
  · intro limit bytes hmem
    exact (d.moves.bounded (h.roomy k) limit bytes hmem).elim (h.whole.bounded limit bytes) id
  · intro i hi
    by_cases hik : i = k
    · subst hik
      cases before : (s.calls i).inside with
      | true => exact (d.moves.stays before hi).trans (h.flagged i before)
      | false => exact (d.moves.enters before hi).2.1
    · obtain ⟨before, after⟩ := d.apart h hik hi
      rw [(d.moves.apart before after).1]
      rw [d.others i hik] at hi
      exact h.flagged i hi
  · intro i
    by_cases hik : i = k
    · rw [hik]
      exact d.moves.roomy (h.roomy k)
    · rw [d.others i hik]
      exact h.roomy i

/-- While no wait and no read of the terminal fails with something collected, the reads lose no
byte: whatever any tasks do, the answers are what was read. -/
theorem steady_reads_whole
    (h : Reachable ((readSystem worth stream).restrict Steady) s) : ReadsWhole stream s :=
  (reachable_invariant (P := Kept stream) (S := (readSystem worth stream).restrict Steady)
    (@kept_started worth stream) (fun _ _ _ hs hstep => kept_step (stepped_of_step hstep.1 hstep.2) hs) h).whole

def letters : Bytes := [97, 98, 99, 100, 101]

def afterReads (es : List (ℕ × Action)) : ThreadState Pty Call :=
  after (advance (fun _ => true) letters) (readSystem (fun _ => true) letters).initial es

def steadyReads : List (ℕ × Action) :=
  [(0, .read 4 none), (0, .swap), (1, .read 2 none), (0, .check), (0, .wait .ready),
    (0, .take (.data 3)), (1, .swap), (0, .check), (0, .wait (.quiet false)), (0, .leave)]

/-- A read that meets a gap delivers the three bytes it has collected. -/
theorem gap_delivers : ReadsWhole letters (afterReads steadyReads) ∧
    (afterReads steadyReads).shared.answers = [(2, .failed .busy), (4, .data [97, 98, 99])] := by
  have reached : Reachable ((readSystem (fun _ => true) letters).restrict Steady)
      (afterReads steadyReads) :=
    reachable_after (P := fun _ => True) (fun s e => decide (Steady s e)) id
      (fun _ _ _ _ _ steady h => ⟨⟨of_decide_eq_true steady, h⟩, trivial⟩) (reachable_initial _)
      trivial (by decide +kernel)
  exact ⟨steady_reads_whole reached, by decide +kernel⟩

def failedWait : List (ℕ × Action) :=
  [(0, .read 10 none), (0, .swap), (0, .check), (0, .wait .ready), (0, .take (.data 3)),
    (0, .check), (0, .wait .error), (0, .leave)]

/-- The bytes collected before a wait fails are in no answer, and the next read goes on behind
them. -/
theorem failed_wait_loses_bytes :
    Reachable (readSystem (fun _ => true) letters) (afterReads failedWait) ∧
      (afterReads failedWait).shared.canceled = false ∧
      (afterReads failedWait).shared.answers = [(10, .failed .io)] ∧
      (afterReads failedWait).shared.taken = 3 ∧ ¬ReadsWhole letters (afterReads failedWait) := by
  have hidle : ∀ i, ((afterReads failedWait).calls i).inside = false := by
    intro i
    by_cases hi : i = 0
    · subst hi
      decide +kernel
    · have : (afterReads failedWait).calls i = .idle := calls_after fun e he => by
        have hown : ∀ e ∈ failedWait, e.1 = 0 := by decide +kernel
        rw [hown e he]
        exact hi
      rw [this]
      rfl
  have hlive : (afterReads failedWait).shared.canceled = false := by decide +kernel
  have hnone : delivered (afterReads failedWait).shared.answers = [] := by decide +kernel
  have htaken : letters.take (afterReads failedWait).shared.taken = [97, 98, 99] := by
    decide +kernel
  refine ⟨reachable_after (P := fun _ => True) (fun _ _ => true) id
    (fun _ _ _ _ _ _ h => ⟨h, trivial⟩) (reachable_initial _) trivial (by decide +kernel),
    hlive, by decide +kernel, by decide +kernel, fun h => ?_⟩
  have := h.outside hidle hlive
  rw [hnone, htaken] at this
  cases this

end Runs

end ProcessReads
