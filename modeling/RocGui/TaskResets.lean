import RocGui.TaskAccounting
import Mathlib.Data.Finset.Card
import Mathlib.Order.Interval.Finset.Nat

/-! The counters across a reset: what they count once it has returned, while workers that began
before it go on. -/
namespace TaskResets

open Transitions TaskLifetimes TaskAccounting

section Tallies

variable {m n : ℕ} {p q : ℕ → Prop} [DecidablePred p] [DecidablePred q]

/-- How many numbers from `since` on and below `n` have a property. -/
def tally (since n : ℕ) (p : ℕ → Prop) [DecidablePred p] : ℕ :=
  ((Finset.Ico since n).filter p).card

theorem tally_le : tally m n p ≤ n - m :=
  (Finset.card_filter_le _ _).trans_eq (Nat.card_Ico m n)

theorem tally_empty : tally n n p = 0 := by
  have := tally_le (m := n) (n := n) (p := p)
  omega

theorem tally_congr (h : ∀ s, s < n → (p s ↔ q s)) : tally m n p = tally m n q := by
  have : (Finset.Ico m n).filter p = (Finset.Ico m n).filter q :=
    Finset.filter_congr fun s hs => h s (Finset.mem_Ico.mp hs).2
  rw [tally, tally, this]

theorem tally_mono (h : ∀ s, s < n → p s → q s) : tally m n p ≤ tally m n q := by
  refine Finset.card_le_card fun s hs => ?_
  rw [Finset.mem_filter] at hs ⊢
  exact ⟨hs.1, h s (Finset.mem_Ico.mp hs.1).2 hs.2⟩

theorem tally_mark {s : ℕ} (hs : m ≤ s) (hn : s < n) (hp : ¬p s) (hq : q s)
    (others : ∀ r, r ≠ s → (q r ↔ p r)) : tally m n q = tally m n p + 1 := by
  have hinsert : (Finset.Ico m n).filter q = insert s ((Finset.Ico m n).filter p) := by
    ext r
    rw [Finset.mem_insert, Finset.mem_filter, Finset.mem_filter]
    by_cases hr : r = s
    · subst hr
      exact ⟨fun _ => .inl rfl, fun _ => ⟨Finset.mem_Ico.mpr ⟨hs, hn⟩, hq⟩⟩
    · rw [others r hr]
      exact ⟨.inr, fun h => h.resolve_left hr⟩
  rw [tally, tally, hinsert, Finset.card_insert_of_notMem]
  exact fun hmem => hp (Finset.mem_filter.mp hmem).2

theorem tally_grow (hp : ¬p n) : tally m (n + 1) p = tally m n p := by
  have : (Finset.Ico m (n + 1)).filter p = (Finset.Ico m n).filter p := by
    ext r
    simp only [Finset.mem_filter, Finset.mem_Ico]
    constructor
    · rintro ⟨⟨hs, hn⟩, hr⟩
      have hne : r ≠ n := by
        rintro rfl
        exact hp hr
      exact ⟨⟨hs, by omega⟩, hr⟩
    · rintro ⟨⟨hs, hn⟩, hr⟩
      exact ⟨⟨hs, by omega⟩, hr⟩
  rw [tally, tally, this]

end Tallies

section Model

/-- The tasks, and how many had been issued when the last reset was called. -/
structure Session where
  tasks : Tasks
  since : ℕ

/-- A worker has only what `issue` has returned. -/
def Handed (t : Tasks) : Event → Prop
  | .begin s => creating t.ui ≠ some s
  | _ => True

instance (t : Tasks) : (e : Event) → Decidable (Handed t e)
  | .begin s => inferInstanceAs (Decidable (creating t.ui ≠ some s))
  | .call _ | .ui | .register _ | .arm _ | .disarm _ | .store _ _ | .exchange _ | .settle _
  | .leave _ => isTrue trivial

def initialSession : Session := ⟨initial, 0⟩

def EnabledSession (s : Session) (e : Event) : Prop := Enabled s.tasks e ∧ Handed s.tasks e

instance (s : Session) (e : Event) : Decidable (EnabledSession s e) :=
  inferInstanceAs (Decidable (_ ∧ _))

def nextSession (s : Session) (e : Event) : Session :=
  ⟨next s.tasks e, if e = .call .reset then s.tasks.allocated else s.since⟩

def sessionSystem : System Session Event := guarded initialSession EnabledSession nextSession

def resetting : Ui → Bool
  | .drain | .zero _ => true
  | ui => continuation ui = some .zero

def counted : Worker → Bool
  | .settled true | .left true => true
  | _ => false

def counter (how : SlotState) (c : Counters) : ℕ :=
  match how with
  | .delivered => c.delivered
  | .superseded => c.superseded
  | .cancelled => c.cancelled
  | _ => 0

def endedSince (since : ℕ) (t : Tasks) (how : SlotState) : ℕ :=
  tally since t.allocated fun s => (t.slot s).state = how

def completedSince (since : ℕ) (t : Tasks) : ℕ :=
  tally since t.allocated fun s => counted (t.worker s) = true

/-- The counters count only tasks issued from `since` on, and between calls all of them. -/
structure CountsSince (since : ℕ) (t : Tasks) : Prop where
  issued : t.counters.issued ≤ t.allocated - since
  completed : t.counters.completed = completedSince since t
  ended : ∀ how : SlotState, how.Ended → counter how t.counters ≤ endedSince since t how
  within : t.counters.completed ≤ t.counters.issued
  complete : t.ui = .idle → t.counters.issued = t.allocated - since ∧
    ∀ how : SlotState, how.Ended → counter how t.counters = endedSince since t how

/-- While the counter of completions is stored zero in, no worker stands between publishing a
completion and counting it. -/
def Settled (s : Session) (e : Event) : Prop :=
  e = .ui → s.tasks.ui = .zero 1 → ∀ r, r < s.tasks.allocated → s.tasks.worker r ≠ .exchanged true

instance (s : Session) (e : Event) : Decidable (Settled s e) :=
  inferInstanceAs (Decidable (_ → _))

/-- The runs whose steps are all `Settled`. -/
def settledSystem : System Session Event :=
  guarded initialSession (fun s e => EnabledSession s e ∧ Settled s e) nextSession

end Model

section Steps

variable {since : ℕ} {t u : Tasks}

/-- A task counted as issued that is not, or not yet. -/
def unissued : Ui → ℕ
  | .countIssued _ => 1
  | _ => 0

def owed (how : SlotState) : Ui → ℕ
  | .countDelivered _ => if how = .delivered then 1 else 0
  | .stopCount why .. => if how = why.state then 1 else 0
  | _ => 0

/-- What holds between resets: the counters with what is in flight are the tallies, and the tasks
of the time before have ended, their completions counted or dropped. -/
structure Tallied (since : ℕ) (t : Tasks) : Prop where
  between : resetting t.ui = false
  since_le : since ≤ t.allocated
  issued : t.counters.issued + unissued t.ui = t.allocated - since
  ended : ∀ how : SlotState, how.Ended →
    counter how t.counters + owed how t.ui = endedSince since t how
  completed : t.counters.completed = completedSince since t
  old_ended : ∀ s, s < since → (t.slot s).state.Ended
  old_settled : ∀ s, s < since → t.worker s ≠ .exchanged true
  created : ∀ s, creating t.ui = some s → t.worker s = .waiting

structure Emptying (since : ℕ) (t : Tasks) : Prop where
  resets : resetting t.ui = true
  all : t.allocated = since
  cleared : ∀ i, t.ui = .zero i → 1 < i →
    t.counters.completed = 0 ∧ ∀ s, t.worker s ≠ .exchanged true

/-- A step that ends no task and issues none. -/
structure Plain (t u : Tasks) : Prop where
  resets : resetting u.ui = resetting t.ui
  allocated : u.allocated = t.allocated
  issued : u.counters.issued + unissued u.ui = t.counters.issued + unissued t.ui
  counts : ∀ how : SlotState, how.Ended →
    counter how u.counters + owed how u.ui = counter how t.counters + owed how t.ui
  completed : u.counters.completed = t.counters.completed
  states : ∀ s how, SlotState.Ended how → ((u.slot s).state = how ↔ (t.slot s).state = how)
  workers : ∀ s, counted (u.worker s) = counted (t.worker s)
  settles : ∀ s, u.worker s = .exchanged true →
    t.worker s = .exchanged true ∨ ¬(t.slot s).state.Ended
  creates : ∀ s, creating u.ui = some s → creating t.ui = some s
  waits : ∀ s, creating t.ui = some s → t.worker s = .waiting → u.worker s = .waiting
  starts : ∀ i, u.ui = .zero i → t.ui = .zero i ∨ i = 0

theorem Plain.tallied (d : Plain t u) (h : Tallied since t) : Tallied since u where
  between := d.resets.trans h.between
  since_le := d.allocated ▸ h.since_le
  issued := by rw [d.issued, d.allocated, h.issued]
  ended how hhow := by
    rw [d.counts how hhow, h.ended how hhow, endedSince, endedSince, d.allocated]
    exact tally_congr fun s _ => (d.states s how hhow).symm
  completed := by
    rw [d.completed, h.completed, completedSince, completedSince, d.allocated]
    exact tally_congr fun s _ => by rw [d.workers s]
  old_ended s hs := by
    have hended := h.old_ended s hs
    rwa [(d.states s _ hended).mpr rfl]
  old_settled s hs hw := (d.settles s hw).elim (h.old_settled s hs)
    fun hopen => hopen (h.old_ended s hs)
  created s hs := d.waits s (d.creates s hs) (h.created s (d.creates s hs))

/-- A step of the UI thread that ends one task, which it then owes its counter. -/
structure Ends (t u : Tasks) (s : ℕ) (how : SlotState) : Prop where
  how_ended : how.Ended
  was_open : ¬(t.slot s).state.Ended
  is_ended : (u.slot s).state = how
  others : ∀ r, r ≠ s → u.slot r = t.slot r
  resets : resetting u.ui = resetting t.ui
  allocated : u.allocated = t.allocated
  counters : u.counters = t.counters
  worker : u.worker = t.worker
  owes : ∀ other, owed other u.ui = if other = how then 1 else 0
  paid : ∀ other, owed other t.ui = 0
  issued : unissued u.ui = 0 ∧ unissued t.ui = 0
  creates : ∀ s, creating u.ui ≠ some s
  starts : ∀ i, u.ui ≠ .zero i

theorem Ends.tallied {s : ℕ} {how : SlotState} (d : Ends t u s how) (hs : s < t.allocated)
    (h : Tallied since t) : Tallied since u where
  between := d.resets.trans h.between
  since_le := d.allocated ▸ h.since_le
  issued := by
    have := h.issued
    rw [d.issued.2] at this
    rw [d.counters, d.issued.1, d.allocated, this]
  ended other hother := by
    have hbefore := h.ended other hother
    rw [d.paid] at hbefore
    rw [d.counters, d.owes]
    by_cases hsame : other = how
    · subst hsame
      have hnew : since ≤ s := Nat.not_lt.mp fun hold => d.was_open (h.old_ended s hold)
      have hmark := tally_mark (m := since) (n := t.allocated)
        (p := fun r => (t.slot r).state = other) (q := fun r => (u.slot r).state = other) hnew hs
        (fun heq => d.was_open (by rwa [heq])) d.is_ended (fun r hr => by rw [d.others r hr])
      rw [if_pos rfl, endedSince, d.allocated, hmark]
      exact congrArg (· + 1) hbefore
    · rw [if_neg hsame, endedSince, d.allocated]
      refine hbefore.trans (tally_congr fun r _ => ?_)
      by_cases hr : r = s
      · subst hr
        rw [d.is_ended]
        exact iff_of_false (fun heq => d.was_open (by rwa [heq])) fun heq => hsame heq.symm
      · rw [d.others r hr]
  completed := by
    rw [d.counters, h.completed, completedSince, completedSince, d.allocated, d.worker]
  old_ended r hr := by
    by_cases hrs : r = s
    · subst hrs
      rw [d.is_ended]
      exact d.how_ended
    · rw [d.others r hrs]
      exact h.old_ended r hr
  old_settled r hr := d.worker ▸ h.old_settled r hr
  created r hr := absurd hr (d.creates r)

/-- What a step of the worker of `s` leaves alone. -/
structure WorkerStep (t u : Tasks) (s : ℕ) : Prop where
  ui : u.ui = t.ui
  allocated : u.allocated = t.allocated
  counters : u.counters = t.counters
  slots : ∀ r, r ≠ s → (u.slot r).state = (t.slot r).state
  workers : ∀ r, r ≠ s → u.worker r = t.worker r

theorem WorkerStep.plain {s : ℕ} (d : WorkerStep t u s)
    (state : ∀ how, SlotState.Ended how → ((u.slot s).state = how ↔ (t.slot s).state = how))
    (worker : counted (u.worker s) = counted (t.worker s))
    (settles : u.worker s = .exchanged true → ¬(t.slot s).state.Ended)
    (waits : creating t.ui = some s → t.worker s ≠ .waiting) : Plain t u where
  resets := by rw [d.ui]
  allocated := d.allocated
  issued := by rw [d.counters, d.ui]
  counts how _ := by rw [d.counters, d.ui]
  completed := by rw [d.counters]
  states r how hhow := by
    by_cases hr : r = s
    · exact hr ▸ state how hhow
    · rw [d.slots r hr]
  workers r := by
    by_cases hr : r = s
    · exact hr ▸ worker
    · rw [d.workers r hr]
  settles r hw := by
    by_cases hr : r = s
    · subst hr
      exact .inr (settles hw)
    · exact .inl (d.workers r hr ▸ hw)
  creates r hr := d.ui ▸ hr
  waits r hcreating hwaiting := by
    have hr : r ≠ s := by
      rintro rfl
      exact waits hcreating hwaiting
    rw [d.workers r hr, hwaiting]
  starts i hi := .inl (d.ui ▸ hi)

theorem worker_leaves {e : Event} {s : ℕ} (hs : slotOf e = some s)
    (silent : e = .settle s → t.worker s ≠ .exchanged true) : WorkerStep t (next t e) s := by
  cases e with
  | call | ui => cases hs
  | begin | exchange =>
    obtain rfl := Option.some.inj hs
    simp only [next]
    split <;> constructor <;>
      simp +contextual [Tasks.observe, Tasks.setWorker, Tasks.setState]
  | settle r =>
    obtain rfl := Option.some.inj hs
    obtain ⟨-, hui, hallocated, hcounters, hworker, hslots⟩ := takeCompletion_frame t r .finish
    simp only [next, if_neg (silent rfl)]
    refine ⟨hui, hallocated, hcounters, fun q hq => by rw [← hslots q hq]; rfl, fun q hq => ?_⟩
    exact (Function.update_of_ne hq _ _).trans (congrFun hworker q)
  | _ =>
    obtain rfl := Option.some.inj hs
    constructor <;>
      simp +contextual [next, Tasks.observe, Tasks.setWorker, Tasks.setCompletion,
        Tasks.setInterrupt]

theorem worker_states {e : Event} {s : ℕ} (hs : slotOf e = some s) {how : SlotState}
    (hhow : how.Ended) : ((next t e).slot s).state = how ↔ (t.slot s).state = how := by
  have apart : ∀ {state : SlotState}, state.code < 3 → state ≠ how := by
    rintro state hstate rfl
    exact Nat.not_lt.mpr hhow hstate
  cases e with
  | call | ui => cases hs
  | begin =>
    obtain rfl := Option.some.inj hs
    simp only [next]
    split
    · rename_i hqueued
      rw [hqueued]
      simp only [Tasks.observe, Tasks.setWorker, Tasks.setState, Function.update_self]
      exact iff_of_false (apart (by decide)) (apart (by decide))
    · rfl
  | exchange =>
    obtain rfl := Option.some.inj hs
    simp only [next]
    split
    · rename_i hrunning
      rw [hrunning]
      simp only [Tasks.setWorker, Tasks.setState, Function.update_self]
      exact iff_of_false (apart (by decide)) (apart (by decide))
    · rfl
  | settle r =>
    obtain rfl := Option.some.inj hs
    simp only [next]
    split
    · rfl
    · exact iff_of_eq (congrArg (· = how) (takeCompletion_state t r r .finish))
  | _ =>
    obtain rfl := Option.some.inj hs
    simp [next, Tasks.observe, Tasks.setWorker, Tasks.setCompletion, Tasks.setInterrupt]

theorem worker_plain {e : Event} {s : ℕ} (he : Enabled t e) (handed : Handed t e)
    (hs : slotOf e = some s) (silent : e = .settle s → t.worker s ≠ .exchanged true) :
    Plain t (next t e) := by
  refine (worker_leaves hs silent).plain (fun _ => worker_states hs) ?_ ?_ ?_
  · cases e with
    | call | ui => cases hs
    | settle r =>
      obtain rfl := Option.some.inj hs
      obtain ⟨published, hw⟩ := he
      have hfalse : published = false := by
        by_contra hp
        exact silent rfl (by simpa [hp] using hw)
      simp only [next, if_neg (silent rfl)]
      simp [Tasks.setWorker, hw, hfalse, counted]
    | leave r =>
      obtain rfl := Option.some.inj hs
      obtain ⟨published, hw⟩ := he
      cases published <;> simp [next, Tasks.setWorker, hw, counted]
    | begin r =>
      obtain rfl := Option.some.inj hs
      simp only [next]
      split <;> simp [Tasks.observe, Tasks.setWorker, he.2, counted]
    | exchange r =>
      obtain rfl := Option.some.inj hs
      simp only [Enabled] at he
      simp only [next]
      split <;> simp [Tasks.setWorker, he, counted]
    | _ =>
      obtain rfl := Option.some.inj hs
      simp only [Enabled] at he
      simp [next, Tasks.observe, Tasks.setWorker, Tasks.setCompletion, Tasks.setInterrupt, he,
        counted]
  · intro hexchanged
    cases e with
    | call | ui => cases hs
    | exchange r =>
      obtain rfl := Option.some.inj hs
      simp only [next] at hexchanged
      split at hexchanged
      · rename_i hrunning
        rw [hrunning]
        decide
      · simp [Tasks.setWorker] at hexchanged
    | begin r | settle r =>
      obtain rfl := Option.some.inj hs
      simp only [next] at hexchanged
      split at hexchanged <;> simp [Tasks.observe, Tasks.setWorker] at hexchanged
    | leave r =>
      obtain rfl := Option.some.inj hs
      simp [next, Tasks.setWorker] at hexchanged
    | _ =>
      obtain rfl := Option.some.inj hs
      simp only [Enabled] at he
      simp [next, Tasks.observe, Tasks.setWorker, Tasks.setCompletion, Tasks.setInterrupt, he]
        at hexchanged
  · intro hcreating hwaiting
    cases e with
    | call | ui => cases hs
    | begin r =>
      obtain rfl := Option.some.inj hs
      exact handed hcreating
    | settle r | leave r =>
      obtain rfl := Option.some.inj hs
      obtain ⟨published, hw⟩ := he
      rw [hw] at hwaiting
      cases hwaiting
    | _ =>
      obtain rfl := Option.some.inj hs
      exact absurd (hwaiting.symm.trans he) (by simp)

theorem settle_tallied {s : ℕ} (inv : Invariant t) (hw : t.worker s = .exchanged true)
    (h : Tallied since t) : Tallied since (next t (.settle s)) := by
  have hlt : s < t.allocated := allocated_of_started inv (by rw [hw]; nofun)
  have hnew : since ≤ s := Nat.not_lt.mp fun hold => h.old_settled s hold hw
  have hnext : next t (.settle s) = { t.setWorker s (.settled true) with
      counters := { t.counters with completed := t.counters.completed + 1 } } := by
    simp only [next, if_pos hw]
  have hother : ∀ r, r ≠ s → (next t (.settle s)).worker r = t.worker r := fun r hr => by
    rw [hnext]
    exact Function.update_of_ne hr _ _
  have hown : (next t (.settle s)).worker s = .settled true := by
    rw [hnext]
    exact Function.update_self _ _ _
  have hmark := tally_mark (m := since) (n := t.allocated)
    (p := fun r => counted (t.worker r) = true)
    (q := fun r => counted ((next t (.settle s)).worker r) = true) hnew hlt
    (by rw [hw]; decide) (by rw [hown]; rfl) (fun r hr => by rw [hother r hr])
  rw [hnext] at hmark hother hown ⊢
  exact
    { between := h.between
      since_le := h.since_le
      issued := h.issued
      ended := h.ended
      completed := (congrArg (· + 1) h.completed).trans hmark.symm
      old_ended := h.old_ended
      old_settled := fun r hr hr' => by
        have hne : r ≠ s := fun heq => Nat.not_lt.mpr hnew (heq ▸ hr)
        exact h.old_settled r hr ((hother r hne).symm.trans hr')
      created := fun r hr => by
        have hwaiting := h.created r hr
        have hne : r ≠ s := by
          rintro rfl
          rw [hw] at hwaiting
          cases hwaiting
        exact (hother r hne).trans hwaiting }

theorem create_tallied {owner : ℕ} {key : String} (inv : Invariant t)
    (hu : t.ui = .create owner key) (h : Tallied since t) : Tallied since (uiStep t) := by
  have hfresh := inv.fresh t.allocated (Nat.le_refl _)
  have hissued := h.issued
  rw [hu] at hissued
  have hle := h.since_le
  have hslot : ∀ how, SlotState.Ended how → ∀ r, r < t.allocated + 1 →
      ((Function.update t.slot t.allocated ⟨owner, key, .queued, false, none⟩ r).state = how ↔
        (t.slot r).state = how) := by
    intro how hhow r _
    by_cases hr : r = t.allocated
    · subst hr
      rw [Function.update_self, hfresh.1]
    · rw [Function.update_of_ne hr]
  unfold uiStep
  rw [hu]
  dsimp only
  refine ⟨rfl, Nat.le_succ_of_le hle, ?_, fun how hhow => ?_, ?_, fun s hs => ?_, h.old_settled, ?_⟩
  · simp only [unissued] at hissued ⊢
    omega
  · have hbefore := h.ended how hhow
    rw [hu] at hbefore
    refine hbefore.trans ?_
    have hgrow : tally since (t.allocated + 1) (fun s => (t.slot s).state = how) =
        tally since t.allocated (fun s => (t.slot s).state = how) := by
      refine tally_grow fun heq => ?_
      rw [← heq, hfresh.1] at hhow
      exact absurd hhow (by decide)
    rw [endedSince, endedSince, ← hgrow]
    exact tally_congr fun r hr => (hslot how hhow r hr).symm
  · refine h.completed.trans ?_
    rw [completedSince, completedSince]
    refine (tally_grow ?_).symm
    rw [hfresh.2.2]
    decide
  · have hne : s ≠ t.allocated := by omega
    have := h.old_ended s hs
    exact (congrArg (fun slot : TaskSlot => slot.state.Ended) (Function.update_of_ne hne _ _)).mpr this
  · intro s hs
    obtain rfl := Option.some.inj hs
    exact hfresh.2.2

@[simp] theorem counter_issued (how : SlotState) (c : Counters) (n : ℕ) :
    counter how { c with issued := n } = counter how c := by
  cases how <;> rfl

@[simp] theorem counter_interrupted (how : SlotState) (c : Counters) (n : ℕ) :
    counter how { c with interrupted := n } = counter how c := by
  cases how <;> rfl

theorem counter_delivered (how : SlotState) (c : Counters) :
    counter how { c with delivered := c.delivered + 1 } =
      counter how c + if how = .delivered then 1 else 0 := by
  cases how <;> rfl

theorem counter_stopped (how : SlotState) (c : Counters) (why : Why) :
    counter how (bumpStopped c why) = counter how c + if how = why.state then 1 else 0 := by
  cases how <;> cases why <;> rfl

theorem plain_of_ui (states : ∀ s, (u.slot s).state = (t.slot s).state)
    (allocated : u.allocated = t.allocated) (worker : u.worker = t.worker)
    (resets : resetting u.ui = resetting t.ui)
    (issued : u.counters.issued + unissued u.ui = t.counters.issued + unissued t.ui)
    (counts : ∀ how : SlotState, how.Ended →
      counter how u.counters + owed how u.ui = counter how t.counters + owed how t.ui)
    (completed : u.counters.completed = t.counters.completed)
    (creates : ∀ s, creating u.ui = some s → creating t.ui = some s)
    (starts : ∀ i, u.ui = .zero i → t.ui = .zero i ∨ i = 0) : Plain t u where
  resets := resets
  allocated := allocated
  issued := issued
  counts := counts
  completed := completed
  states s how _ := by rw [states s]
  workers s := by rw [worker]
  settles s hs := .inl (worker ▸ hs)
  creates := creates
  waits s _ hs := worker ▸ hs
  starts := starts

theorem ui_cases (inv : Invariant t) : Plain t (uiStep t) ∨
    (∃ s how, s < t.allocated ∧ Ends t (uiStep t) s how) ∨
    (∃ owner key, t.ui = .create owner key) ∨ ∃ i, t.ui = .zero i := by
  cases hu : t.ui with
  | create owner key => exact .inr (.inr (.inl ⟨owner, key, rfl⟩))
  | zero i => exact .inr (.inr (.inr ⟨i, rfl⟩))
  | stopExchange why s current rest after =>
    have hopen := inv.stopping_open s (by simp [hu, stopping])
    unfold uiStep
    rw [hu]
    dsimp only
    split
    · refine .inr (.inl ⟨s, why.state, inv.stopping_named s (by simp [hu, stopping]), ?_⟩)
      exact
        { how_ended := by cases why <;> decide
          was_open := hopen
          is_ended := by simp [Tasks.observe, Tasks.setState]
          others := fun r hr => by simp [Tasks.observe, Tasks.setState, hr]
          resets := by simp [hu, resetting, continuation]
          allocated := rfl
          counters := rfl
          worker := rfl
          owes := fun other => rfl
          paid := fun other => by rw [hu]; rfl
          issued := ⟨rfl, by rw [hu]; rfl⟩
          creates := fun _ h => by cases h
          starts := fun _ h => by cases h }
    · refine .inl (plain_of_ui ?_ ?_ ?_ ?_ ?_ ?_ ?_ ?_ ?_) <;>
        simp [hu, resetting, continuation, unissued, owed, creating]
  | deliverExchange s =>
    unfold uiStep
    rw [hu]
    dsimp only
    split
    · rename_i hpublished
      refine .inr (.inl ⟨s, .delivered, ?_, ?_⟩)
      · by_contra hfresh
        rw [(inv.fresh s (Nat.not_lt.mp hfresh)).1] at hpublished
        cases hpublished
      · exact
          { how_ended := by decide
            was_open := by rw [hpublished]; decide
            is_ended := by simp [Tasks.observe, Tasks.setState]
            others := fun r hr => by simp [Tasks.observe, Tasks.setState, hr]
            resets := by simp [hu, resetting, continuation]
            allocated := rfl
            counters := rfl
            worker := rfl
            owes := fun other => rfl
            paid := fun other => by rw [hu]; rfl
            issued := ⟨rfl, by rw [hu]; rfl⟩
            creates := fun _ h => by cases h
            starts := fun _ h => by cases h }
    · refine .inl (plain_of_ui ?_ ?_ ?_ ?_ ?_ ?_ ?_ ?_ ?_) <;>
        simp [hu, resetting, continuation, unissued, owed, creating]
  | stopTake why s rest after =>
    obtain ⟨-, -, hallocated, hcounters, hworker, -⟩ := takeCompletion_frame t s .stop
    refine .inl ?_
    unfold uiStep
    rw [hu]
    refine plain_of_ui (fun r => takeCompletion_state t s r .stop) hallocated hworker ?_ ?_ ?_ ?_
      ?_ ?_ <;> simp [hu, hcounters, resetting, continuation, unissued, owed, creating]
  | deliverTake s =>
    obtain ⟨-, -, hallocated, hcounters, hworker, -⟩ := takeCompletion_frame t s .deliver
    refine .inl ?_
    unfold uiStep
    rw [hu]
    refine plain_of_ui (fun r => takeCompletion_state t s r .deliver) hallocated hworker ?_ ?_ ?_
      ?_ ?_ ?_ <;> simp [hu, hcounters, resetting, continuation, unissued, owed, creating]
  | countDelivered s =>
    refine .inl ?_
    unfold uiStep
    rw [hu]
    refine plain_of_ui ?_ ?_ ?_ ?_ ?_ ?_ ?_ ?_ ?_ <;>
      simp [hu, resetting, continuation, unissued, owed, creating, counter_delivered]
  | stopCount why s rest after =>
    refine .inl ?_
    unfold uiStep
    rw [hu]
    refine plain_of_ui ?_ ?_ ?_ ?_ ?_ ?_ ?_ ?_ ?_ <;>
      simp [hu, resetting, continuation, unissued, owed, creating, counter_stopped] <;>
      cases why <;> rfl
  | stopNext why ended after =>
    refine .inl ?_
    unfold uiStep
    rw [hu]
    cases ended with
    | nil =>
      refine plain_of_ui ?_ ?_ ?_ ?_ ?_ ?_ ?_ ?_ ?_ <;> cases after <;>
        simp [hu, After.resume, resetting, continuation, unissued, owed, creating]
    | cons s rest =>
      dsimp only
      split <;> refine plain_of_ui ?_ ?_ ?_ ?_ ?_ ?_ ?_ ?_ ?_ <;>
        simp [hu, resetting, continuation, unissued, owed, creating]
  | stopHook why s rest after =>
    refine .inl ?_
    unfold uiStep
    rw [hu]
    dsimp only
    split <;> refine plain_of_ui ?_ ?_ ?_ ?_ ?_ ?_ ?_ ?_ ?_ <;>
      simp [hu, resetting, continuation, unissued, owed, creating]
  | _ =>
    refine .inl ?_
    unfold uiStep
    rw [hu]
    refine plain_of_ui ?_ ?_ ?_ ?_ ?_ ?_ ?_ ?_ ?_ <;>
      simp [hu, resetting, continuation, unissued, owed, creating]

theorem emptied_ended {i s : ℕ} (inv : Invariant t) (hz : t.ui = .zero i) (hs : s < t.allocated) :
    (t.slot s).state.Ended := by
  by_contra hopen
  have hbooks := inv.books
  simp only [Books, hz] at hbooks
  have htracked := inv.tracked s hs hopen
  simp [hz, hbooks.1, stopping, creating] at htracked

theorem Plain.emptying (d : Plain t u) (inv : Invariant t) (inv' : Invariant u)
    (h : Emptying since t) : Emptying since u where
  resets := d.resets.trans h.resets
  all := d.allocated.trans h.all
  cleared i hi hlt := by
    obtain hz | rfl := d.starts i hi
    · obtain ⟨hcompleted, hworkers⟩ := h.cleared i hz hlt
      refine ⟨d.completed.trans hcompleted, fun s hs => ?_⟩
      have hnamed : s < t.allocated :=
        d.allocated ▸ allocated_of_started inv' (by rw [hs]; nofun)
      exact (d.settles s hs).elim (hworkers s) fun hopen => hopen (emptied_ended inv hz hnamed)
    · exact absurd hlt (Nat.not_lt_zero 1)

theorem Ends.emptying {s : ℕ} {how : SlotState} (d : Ends t u s how) (h : Emptying since t) :
    Emptying since u where
  resets := d.resets.trans h.resets
  all := d.allocated.trans h.all
  cleared i hi := absurd hi (d.starts i)

theorem settle_emptying {s : ℕ} (hw : t.worker s = .exchanged true) (h : Emptying since t) :
    Emptying since (next t (.settle s)) := by
  have hnext : next t (.settle s) = { t.setWorker s (.settled true) with
      counters := { t.counters with completed := t.counters.completed + 1 } } := by
    simp only [next, if_pos hw]
  rw [hnext]
  exact ⟨h.resets, h.all, fun i hi hlt => absurd hw ((h.cleared i hi hlt).2 s)⟩

/-- The last store of a reset leaves every counter at zero, and every task ended. -/
theorem last_zero_tallied {i : ℕ} (inv : Invariant t) (hz : t.ui = .zero i) (hlast : 5 ≤ i)
    (h : Emptying since t) : Tallied since (uiStep t) := by
  have hbooks := inv.books
  simp only [Books, hz] at hbooks
  obtain ⟨-, hissued, hdelivered, hsuperseded, hcancelled⟩ := hbooks
  obtain ⟨hcompleted, hworkers⟩ := h.cleared i hz (by omega)
  have hstep : uiStep t =
      { t with counters := { t.counters with interrupted := 0 }, ui := .idle } := by
    unfold uiStep
    rw [hz]
    obtain ⟨k, rfl⟩ : ∃ k, i = k + 5 := ⟨i - 5, by omega⟩
    simp [zeroCounter]
  have hall := h.all
  have hended : ∀ s, s < since → (t.slot s).state.Ended := fun s hs =>
    emptied_ended inv hz (Nat.lt_of_lt_of_eq hs hall.symm)
  rw [hstep]
  refine
    { between := rfl
      since_le := Nat.le_of_eq hall.symm
      issued := ?_
      ended := fun how hhow => ?_
      completed := ?_
      old_ended := hended
      old_settled := fun s _ => hworkers s
      created := fun _ h => by cases h }
  · rw [hall, Nat.sub_self]
    exact hissued (by omega)
  · rw [endedSince, hall, tally_empty, counter_interrupted]
    cases how with
    | delivered => exact hdelivered (by omega)
    | superseded => exact hsuperseded (by omega)
    | cancelled => exact hcancelled (by omega)
    | _ => rfl
  · rw [completedSince, hall, tally_empty]
    exact hcompleted

theorem zero_emptying {i : ℕ} (hz : t.ui = .zero i) (hnext : i < 5) (h : Emptying since t)
    (settled : i = 1 → ∀ s, t.worker s ≠ .exchanged true) : Emptying since (uiStep t) := by
  have hstep : uiStep t =
      { t with counters := zeroCounter t.counters i, ui := .zero (i + 1) } := by
    unfold uiStep
    rw [hz]
    simp [hnext]
  rw [hstep]
  refine ⟨rfl, h.all, fun j hj hlt => ?_⟩
  obtain rfl := Ui.zero.inj hj
  match i with
  | 0 => omega
  | 1 => exact ⟨rfl, settled rfl⟩
  | 2 | 3 | 4 => exact h.cleared _ hz (by omega)

end Steps

section Runs

variable {s : Session} {t : Tasks}

structure Kept (s : Session) : Prop where
  books : Invariant s.tasks
  counts : Tallied s.since s.tasks ∨ Emptying s.since s.tasks

theorem kept_initial : Kept initialSession where
  books := initial_invariant
  counts := .inl
    { between := rfl
      since_le := Nat.le_refl _
      issued := rfl
      ended := fun how _ => by cases how <;> exact tally_empty.symm
      completed := tally_empty.symm
      old_ended := fun _ hs => absurd hs (Nat.not_lt_zero _)
      old_settled := fun _ hs => absurd hs (Nat.not_lt_zero _)
      created := nofun }

theorem call_plain {c : Call} (hidle : t.ui = .idle) (hc : c ≠ .reset) :
    Plain t (next t (.call c)) := by
  refine plain_of_ui ?_ ?_ ?_ ?_ ?_ ?_ ?_ ?_ ?_ <;> cases c <;> simp only [next, enter] <;>
    (try split) <;>
    simp_all [resetting, continuation, unissued, owed, creating]

theorem kept_step {since : ℕ} {e : Event} (h : Kept ⟨t, since⟩) (he : Enabled t e)
    (handed : Handed t e) (settled : Settled ⟨t, since⟩ e) :
    Kept (nextSession ⟨t, since⟩ e) := by
  have books := step_preserves_invariant h.books he
  refine ⟨books, ?_⟩
  rw [nextSession]
  have plain : Plain t (next t e) → Tallied since (next t e) ∨ Emptying since (next t e) :=
    fun d => h.counts.imp d.tallied (d.emptying h.books books)
  cases hs : slotOf e with
  | some s =>
    have hcall : e ≠ .call .reset := by
      rintro rfl
      cases hs
    rw [if_neg hcall]
    by_cases hw : e = .settle s ∧ t.worker s = .exchanged true
    · obtain ⟨rfl, hw⟩ := hw
      exact h.counts.imp (settle_tallied h.books hw) (settle_emptying hw)
    · exact plain (worker_plain he handed hs fun heq hw' => hw ⟨heq, hw'⟩)
  | none =>
    cases e with
    | call c =>
      by_cases hc : c = .reset
      · subst hc
        rw [if_pos rfl]
        exact .inr ⟨rfl, rfl, nofun⟩
      · have hidle : t.ui = .idle := by cases c <;> simp_all [Enabled]
        rw [if_neg (by simpa using hc)]
        exact plain (call_plain hidle hc)
    | ui =>
      rw [if_neg (by nofun)]
      obtain d | ⟨s, how, hs, d⟩ | ⟨owner, key, hu⟩ | ⟨i, hz⟩ := ui_cases h.books
      · exact plain d
      · exact h.counts.imp (d.tallied hs) d.emptying
      · refine .inl (create_tallied h.books hu (h.counts.resolve_right fun hemptying => ?_))
        have hresets : resetting t.ui = true := hemptying.resets
        rw [show t.ui = .create owner key from hu] at hresets
        cases hresets
      · have hemptying := h.counts.resolve_left fun htallied => by
          have hbetween : resetting t.ui = false := htallied.between
          rw [show t.ui = .zero i from hz] at hbetween
          cases hbetween
        by_cases hlast : 5 ≤ i
        · exact .inl (last_zero_tallied h.books hz hlast hemptying)
        · refine .inr (zero_emptying hz (by omega) hemptying ?_)
          rintro rfl r hw
          have hnamed : r < t.allocated := allocated_of_started h.books (by rw [hw]; nofun)
          exact settled rfl hz r hnamed hw
    | _ => cases hs

theorem counts_of_tallied {since : ℕ} (inv : Invariant t) (h : Tallied since t) :
    CountsSince since t where
  issued := by
    have := h.issued
    omega
  completed := h.completed
  ended how hhow := Nat.le.intro (h.ended how hhow)
  within := by
    have hissued := h.issued
    rw [h.completed]
    cases hu : t.ui with
    | countIssued s =>
      have hcreating : creating t.ui = some s := by rw [hu]; rfl
      have hnew : since ≤ s :=
        Nat.not_lt.mp fun hold => inv.creating_open s hcreating (h.old_ended s hold)
      have hmark := tally_mark (m := since) (n := t.allocated)
        (p := fun r => counted (t.worker r) = true)
        (q := fun r => r = s ∨ counted (t.worker r) = true) hnew (inv.creating_named s hcreating)
        (by rw [h.created s hcreating]; decide) (.inl rfl) (fun r hr => or_iff_right hr)
      have hle := tally_le (m := since) (n := t.allocated)
        (p := fun r => r = s ∨ counted (t.worker r) = true)
      rw [hu] at hissued
      simp only [unissued] at hissued
      rw [completedSince]
      omega
    | _ =>
      rw [hu] at hissued
      have hle := tally_le (m := since) (n := t.allocated)
        (p := fun r => counted (t.worker r) = true)
      simp only [unissued] at hissued
      rw [completedSince]
      omega
  complete hidle := by
    refine ⟨?_, fun how hhow => ?_⟩
    · simpa [hidle, unissued] using h.issued
    · simpa [hidle, owed] using h.ended how hhow

/-- While no worker stands between publishing and counting when the counter of completions is
stored zero in, the counters count only what was issued since the last reset. -/
theorem counters_survive_reset (h : Reachable settledSystem s)
    (between : resetting s.tasks.ui = false) : CountsSince s.since s.tasks := by
  have kept : Kept s := guarded_invariant kept_initial
    (fun s e hs he =>
      show Kept (nextSession ⟨s.tasks, s.since⟩ e) from kept_step hs he.1.1 he.1.2 he.2) h
  exact counts_of_tallied kept.books (kept.counts.resolve_right fun hemptying =>
    absurd (between.symm.trans hemptying.resets) (by simp))

def stored : List Event :=
  [.call (.issue 7 "page"), .ui, .ui, .ui, .ui, .ui, .begin 0, .register 0, .store 0 ⟨5⟩]

def wholeReset : List Event :=
  [.call .reset, .ui, .ui, .ui, .ui, .ui, .ui, .ui, .ui, .ui, .ui, .ui, .ui, .ui]

def settledRun : List Event :=
  stored ++ wholeReset ++ [.exchange 0, .settle 0, .call (.issue 7 ""), .ui, .ui, .ui]

theorem late_worker_not_counted :
    CountsSince 1 (runTrace nextSession initialSession settledRun).tasks ∧
      (runTrace nextSession initialSession settledRun).tasks.counters.issued = 1 ∧
      (runTrace nextSession initialSession settledRun).tasks.counters.completed = 0 := by
  have hsince : (runTrace nextSession initialSession settledRun).since = 1 := by decide +kernel
  refine ⟨?_, by decide +kernel, by decide +kernel⟩
  rw [← hsince]
  exact counters_survive_reset (valid_trace_reachable (reachable_initial _) (by decide +kernel))
    (by decide +kernel)

def crossedRun : List Event := stored ++ .exchange 0 :: wholeReset ++ [.settle 0]

/-- The completion of a task issued before the reset is counted after it. -/
theorem completion_counted_after_reset :
    Reachable sessionSystem (runTrace nextSession initialSession crossedRun) ∧
      (runTrace nextSession initialSession crossedRun).tasks.ui = .idle ∧
      (runTrace nextSession initialSession crossedRun).since = 1 ∧
      (runTrace nextSession initialSession crossedRun).tasks.allocated = 1 ∧
      (runTrace nextSession initialSession crossedRun).tasks.counters.issued = 0 ∧
      (runTrace nextSession initialSession crossedRun).tasks.counters.completed = 1 ∧
      ¬CountsSince 1 (runTrace nextSession initialSession crossedRun).tasks := by
  have hissued : (runTrace nextSession initialSession crossedRun).tasks.counters.issued = 0 := by
    decide +kernel
  have hcompleted :
      (runTrace nextSession initialSession crossedRun).tasks.counters.completed = 1 := by
    decide +kernel
  refine ⟨valid_trace_reachable (reachable_initial _) (by decide +kernel), by decide +kernel,
    by decide +kernel, by decide +kernel, hissued, hcompleted, fun h => ?_⟩
  have := h.within
  rw [hissued, hcompleted] at this
  exact absurd this (by decide)

end Runs

end TaskResets
