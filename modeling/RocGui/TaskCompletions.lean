import Mathlib.Data.List.Basic
import RocGui.TaskAccounting

/-! Who owns what a task's worker produced. The history of one slot, its state
word, its worker and the UI thread's position are kept in step by one invariant
of that slot alone; no other slot's steps touch it. -/
namespace TaskCompletions

open Transitions TaskLifetimes
open TaskAccounting (reachable_accounts)

def endedAs (s : ℕ) : Observation → Option SlotState
  | .ended t how => if t = s then some how else none
  | _ => none

def producedBy (s : ℕ) : Observation → Option Owned
  | .produced t c => if t = s then some c else none
  | _ => none

def takenFrom (s : ℕ) : Observation → Option (Party × Owned)
  | .took t party c => if t = s then some (party, c) else none
  | _ => none

/-- How the task ended, latest first. -/
def ends (s : ℕ) (history : List Observation) : List SlotState := history.filterMap (endedAs s)

/-- The completions its worker produced. -/
def produced (s : ℕ) (history : List Observation) : List Owned := history.filterMap (producedBy s)

/-- Each time a completion was taken out of the slot, and by whom. -/
def takes (s : ℕ) (history : List Observation) : List (Party × Owned) :=
  history.filterMap (takenFrom s)

def Releasing (s : ℕ) : Ui → Prop
  | .stopCount _ t _ _ | .stopTake _ t _ _ => t = s
  | _ => False

def Delivering (s : ℕ) : Ui → Prop
  | .countDelivered t | .retainLive t | .deliverTake t => t = s
  | _ => False

/-- The states a worker at this point can find. -/
def Phase : Worker → SlotState → Prop
  | .waiting, st => st = .queued ∨ st.Stopped
  | .refused, st => st.Stopped
  | .begun, st | .running, st | .stored, st => st = .running ∨ st.Stopped
  | .exchanged true, st | .settled true, st | .left true, st => st = .published ∨ st.Ended
  | .exchanged false, st | .settled false, st | .left false, st => st.Stopped

def Worker.Unfinished : Worker → Prop
  | .waiting | .refused | .begun | .running => True
  | _ => False

/-- The worker will still look into the slot for a completion to take back. -/
def Worker.Returning : Worker → Prop
  | .stored | .exchanged false => True
  | _ => False

/-- One place or one party: a produced completion is in the slot untouched, or
it was taken out once. -/
def Owns (completion : Option Owned) (produced : List Owned) (takes : List (Party × Owned)) :
    Prop :=
  ∃ c, produced = [c] ∧ (completion = some c ∧ takes = [] ∨
    completion = none ∧ ∃ party, takes = [(party, c)])

structure SlotInvariant (s : ℕ) (slot : TaskSlot) (worker : Worker) (ui : Ui)
    (history : List Observation) : Prop where
  ends_eq : ends s history = if slot.state.Ended then [slot.state] else []
  phase : Phase worker slot.state
  before : Worker.Unfinished worker →
    slot.completion = none ∧ produced s history = [] ∧ takes s history = []
  after : ¬ Worker.Unfinished worker → Owns slot.completion (produced s history) (takes s history)
  by_deliver : ∀ c, (.deliver, c) ∈ takes s history → slot.state = .delivered
  by_other : ∀ party c, (party, c) ∈ takes s history → party ≠ .deliver → slot.state.Stopped
  published : slot.state = .published → slot.completion ≠ none
  delivered : slot.state = .delivered → (slot.completion ≠ none ↔ Delivering s ui)
  stopped : slot.state.Stopped → slot.completion ≠ none →
    Releasing s ui ∨ Worker.Returning worker
  releasing : Releasing s ui → slot.state.Stopped
  delivering : Delivering s ui → slot.state = .delivered

def Invariant (t : Tasks) : Prop :=
  ∀ s, SlotInvariant s (t.slot s) (t.worker s) t.ui t.history

@[simp] theorem ends_cons (s : ℕ) (o : Observation) (h : List Observation) :
    ends s (o :: h) = (endedAs s o).toList ++ ends s h := by
  cases ho : endedAs s o <;> simp [ends, ho]

@[simp] theorem produced_cons (s : ℕ) (o : Observation) (h : List Observation) :
    produced s (o :: h) = (producedBy s o).toList ++ produced s h := by
  cases ho : producedBy s o <;> simp [produced, ho]

@[simp] theorem takes_cons (s : ℕ) (o : Observation) (h : List Observation) :
    takes s (o :: h) = (takenFrom s o).toList ++ takes s h := by
  cases ho : takenFrom s o <;> simp [takes, ho]

theorem stopped_ended {st : SlotState} (h : st.Stopped) : st.Ended := by
  cases st <;> simp_all [SlotState.Stopped, SlotState.Ended, SlotState.code]

theorem why_stopped (why : Why) : why.state.Stopped := by
  cases why <;> simp [Why.state, SlotState.Stopped, SlotState.code]

theorem initial_invariant : Invariant initial := by
  intro s
  constructor <;> simp [initial, ends, produced, takes, Phase, SlotState.Ended, SlotState.Stopped,
    SlotState.code, Worker.Unfinished, Releasing, Delivering]

theorem SlotInvariant.move {s : ℕ} {slot : TaskSlot} {w : Worker} {u v : Ui}
    {h : List Observation} (inv : SlotInvariant s slot w u h)
    (hr : Releasing s v ↔ Releasing s u) (hd : Delivering s v ↔ Delivering s u) :
    SlotInvariant s slot w v h := by
  obtain ⟨a, b, c, d, e, f, g, i, j, k, l⟩ := inv
  exact ⟨a, b, c, d, e, f, g, by simpa only [hd] using i, by simpa only [hr] using j,
    by simpa only [hr] using k, by simpa only [hd] using l⟩

theorem SlotInvariant.other {s : ℕ} {slot : TaskSlot} {w : Worker} {u : Ui}
    {h : List Observation} {o : Observation} (inv : SlotInvariant s slot w u h)
    (he : endedAs s o = none) (hp : producedBy s o = none) (ht : takenFrom s o = none) :
    SlotInvariant s slot w u (o :: h) := by
  obtain ⟨a, b, c, d, e, f, g, i, j, k, l⟩ := inv
  exact ⟨by simpa [he] using a, b, by simpa [hp, ht] using c, by simpa [hp, ht] using d,
    by simpa [ht] using e, by simpa [ht] using f, g, i, j, k, l⟩

theorem SlotInvariant.hook {s : ℕ} {slot : TaskSlot} {w : Worker} {u : Ui}
    {h : List Observation} (inv : SlotInvariant s slot w u h) (armed : Bool) :
    SlotInvariant s { slot with interrupt := armed } w u h :=
  ⟨inv.1, inv.2, inv.3, inv.4, inv.5, inv.6, inv.7, inv.8, inv.9, inv.10, inv.11⟩

theorem SlotInvariant.begin {s : ℕ} {slot : TaskSlot} {u : Ui} {h : List Observation}
    (inv : SlotInvariant s slot .waiting u h) (hq : slot.state = .queued) :
    SlotInvariant s { slot with state := .running } .begun u (.ran s :: h) := by
  obtain ⟨a, b, c, d, e, f, g, i, j, k, l⟩ := inv
  obtain ⟨hc, hp, ht⟩ := c trivial
  constructor <;>
    simp_all [endedAs, producedBy, takenFrom, Phase, Worker.Unfinished, SlotState.Ended,
      SlotState.Stopped, SlotState.code]

theorem SlotInvariant.refuse {s : ℕ} {slot : TaskSlot} {u : Ui} {h : List Observation}
    (inv : SlotInvariant s slot .waiting u h) (hq : slot.state ≠ .queued) :
    SlotInvariant s slot .refused u h := by
  obtain ⟨a, b, c, d, e, f, g, i, j, k, l⟩ := inv
  exact ⟨a, b.resolve_left hq, c, fun hn => (hn trivial).elim, e, f, g, i,
    fun hs hc => (hc (c trivial).1).elim, k, l⟩

/-- `finish` publishes the completion before it looks at the state. -/
theorem SlotInvariant.store {s : ℕ} {slot : TaskSlot} {u : Ui} {h : List Observation}
    (inv : SlotInvariant s slot .running u h) (c : Owned) :
    SlotInvariant s { slot with completion := some c } .stored u (.produced s c :: h) := by
  obtain ⟨a, b, before, d, e, f, g, i, j, k, l⟩ := inv
  obtain ⟨hc, hp, ht⟩ := before trivial
  constructor <;>
    simp_all [endedAs, producedBy, takenFrom, Phase, Worker.Unfinished, Owns, Worker.Returning]
  rcases b with b | b <;> intro hd <;> simp_all [SlotState.Stopped, SlotState.code]

theorem SlotInvariant.exchange {s : ℕ} {slot : TaskSlot} {u : Ui} {h : List Observation}
    (inv : SlotInvariant s slot .stored u h) (hr : slot.state = .running) :
    SlotInvariant s { slot with state := .published } (.exchanged true) u h := by
  obtain ⟨a, b, before, d, e, f, g, i, j, k, l⟩ := inv
  obtain ⟨c, hp, hc⟩ := d (by simp [Worker.Unfinished])
  have ht : takes s h = [] ∧ slot.completion = some c := by
    rcases hc with hc | ⟨hc, party, ht⟩
    · exact ⟨hc.2, hc.1⟩
    · by_cases hd : party = .deliver
      · subst hd; have := e c (by simp [ht]); simp [hr] at this
      · have := f party c (by simp [ht]) hd
        simp [hr, SlotState.Stopped, SlotState.code] at this
  constructor <;>
    simp_all [Phase, Worker.Unfinished, Owns, SlotState.Stopped, SlotState.Ended, SlotState.code]

theorem SlotInvariant.exchange_failed {s : ℕ} {slot : TaskSlot} {u : Ui}
    {h : List Observation} (inv : SlotInvariant s slot .stored u h)
    (hr : slot.state ≠ .running) : SlotInvariant s slot (.exchanged false) u h := by
  obtain ⟨a, b, before, d, e, f, g, i, j, k, l⟩ := inv
  exact ⟨a, b.resolve_left hr, fun hw => hw.elim, fun _ => d (by simp [Worker.Unfinished]), e, f,
    g, i, fun _ _ => Or.inr trivial, k, l⟩

theorem SlotInvariant.advance {s : ℕ} {slot : TaskSlot} {v w : Worker} {u : Ui}
    {h : List Observation} (inv : SlotInvariant s slot v u h)
    (hp : Phase v slot.state → Phase w slot.state)
    (hu : Worker.Unfinished w ↔ Worker.Unfinished v)
    (hr : Worker.Returning v → Worker.Returning w) : SlotInvariant s slot w u h := by
  obtain ⟨a, b, c, d, e, f, g, i, j, k, l⟩ := inv
  exact ⟨a, hp b, by simpa only [hu] using c, by simpa only [hu] using d, e, f, g, i,
    fun hs hc => (j hs hc).imp_right hr, k, l⟩

/-- `finish` takes back what it published for a task that ended meanwhile. -/
theorem SlotInvariant.take_back {s : ℕ} {slot : TaskSlot} {u : Ui} {h : List Observation}
    (inv : SlotInvariant s slot (.exchanged false) u h) {c : Owned}
    (hc : slot.completion = some c) :
    SlotInvariant s { slot with completion := none } (.settled false) u
      (.took s .finish c :: h) := by
  obtain ⟨a, b, before, d, e, f, g, i, j, k, l⟩ := inv
  obtain ⟨c', hp, ho⟩ := d (by simp [Worker.Unfinished])
  have hs : slot.state.Stopped := b
  have ht : takes s h = [] ∧ c' = c := by
    rcases ho with ho | ho
    · exact ⟨ho.2, by simpa [hc] using ho.1.symm⟩
    · simp [hc] at ho
  constructor <;>
    simp_all [endedAs, producedBy, takenFrom, Phase, Worker.Unfinished, Owns]
  · intro hd; simp [hd, SlotState.Stopped, SlotState.code] at hs
  · intro hd; simp [hd, SlotState.Stopped, SlotState.code] at hs

theorem SlotInvariant.nothing_back {s : ℕ} {slot : TaskSlot} {u : Ui} {h : List Observation}
    (inv : SlotInvariant s slot (.exchanged false) u h) (hc : slot.completion = none) :
    SlotInvariant s slot (.settled false) u h := by
  obtain ⟨a, b, before, d, e, f, g, i, j, k, l⟩ := inv
  exact ⟨a, b, fun hw => hw.elim, fun _ => d (by simp [Worker.Unfinished]), e, f, g, i,
    fun _ hn => (hn hc).elim, k, l⟩

/-- The exchange of `stop`: from here on the task never publishes or delivers. -/
theorem SlotInvariant.stop {s : ℕ} {slot : TaskSlot} {w : Worker} {u v : Ui}
    {h : List Observation} (inv : SlotInvariant s slot w u h) (ho : ¬ slot.state.Ended)
    (why : Why) (hr : Releasing s v) (hd : ¬ Delivering s v) :
    SlotInvariant s { slot with state := why.state } w v (.ended s why.state :: h) := by
  obtain ⟨a, b, c, d, e, f, g, i, j, k, l⟩ := inv
  have hs := why_stopped why
  have he := stopped_ended hs
  refine ⟨?_, ?_, ?_, ?_, ?_, ?_, ?_, ?_, fun _ _ => Or.inl hr, fun _ => hs, fun hv => (hd hv).elim⟩
  · simp [endedAs, a, ho, he]
  · have hsp : slot.state.Stopped → False := fun hk => ho (stopped_ended hk)
    cases w <;> simp_all [Phase]
    all_goals split <;> simp_all
  · simpa [producedBy, takenFrom] using c
  · simpa [producedBy, takenFrom] using d
  · intro c' hc'
    have := e c' (by simpa [takenFrom] using hc')
    exact (ho (by simp [this, SlotState.Ended])).elim
  · exact fun _ _ _ _ => hs
  · intro hp; cases why <;> simp [Why.state] at hp
  · intro hp; cases why <;> simp [Why.state] at hp

theorem SlotInvariant.release {s : ℕ} {slot : TaskSlot} {w : Worker} {u v : Ui}
    {h : List Observation} (inv : SlotInvariant s slot w u h) (hs : slot.state.Stopped)
    {c : Owned} (hc : slot.completion = some c) (hr : ¬ Releasing s v) (hd : ¬ Delivering s v) :
    SlotInvariant s { slot with completion := none } w v (.took s .stop c :: h) := by
  obtain ⟨a, b, before, d, e, f, g, i, j, k, l⟩ := inv
  have hw : ¬ Worker.Unfinished w := fun hw => by simp [(before hw).1] at hc
  obtain ⟨c', hp, ho⟩ := d hw
  have ht : takes s h = [] ∧ c' = c := by
    rcases ho with ho | ho
    · exact ⟨ho.2, by simpa [hc] using ho.1.symm⟩
    · simp [hc] at ho
  have hnd : slot.state ≠ .delivered := by
    intro hk; simp [hk, SlotState.Stopped, SlotState.code] at hs
  have hnp : slot.state ≠ .published := by
    intro hk; simp [hk, SlotState.Stopped, SlotState.code] at hs
  refine ⟨by simpa [endedAs] using a, b, fun hk => (hw hk).elim, fun _ => ?_, ?_, ?_,
    fun hk => (hnp hk).elim, fun hk => (hnd hk).elim, fun _ hn => (hn rfl).elim,
    fun hk => (hr hk).elim, fun hk => (hd hk).elim⟩
  · exact ⟨c, by simp [producedBy, hp, ht.2], Or.inr ⟨rfl, .stop, by simp [takenFrom, ht.1]⟩⟩
  · intro c₁ hm; simp [takenFrom, ht.1] at hm
  · exact fun _ _ _ _ => hs

/-- A release that finds nothing leaves the worker to take back what it publishes. -/
theorem SlotInvariant.release_none {s : ℕ} {slot : TaskSlot} {w : Worker} {u v : Ui}
    {h : List Observation} (inv : SlotInvariant s slot w u h) (hs : slot.state.Stopped)
    (hc : slot.completion = none) (hr : ¬ Releasing s v) (hd : ¬ Delivering s v) :
    SlotInvariant s slot w v h := by
  obtain ⟨a, b, c, d, e, f, g, i, j, k, l⟩ := inv
  refine ⟨a, b, c, d, e, f, g, ?_, fun _ hn => (hn hc).elim, fun hk => (hr hk).elim,
    fun hk => (hd hk).elim⟩
  intro hk; simp [hk, SlotState.Stopped, SlotState.code] at hs

theorem SlotInvariant.deliver {s : ℕ} {slot : TaskSlot} {w : Worker} {u v : Ui}
    {h : List Observation} (inv : SlotInvariant s slot w u h) (hp : slot.state = .published)
    (hr : ¬ Releasing s v) (hd : Delivering s v) :
    SlotInvariant s { slot with state := .delivered } w v (.ended s .delivered :: h) := by
  obtain ⟨a, b, c, d, e, f, g, i, j, k, l⟩ := inv
  have hc := g hp
  have hw : ¬ Worker.Unfinished w := fun hw => hc (c hw).1
  refine ⟨?_, ?_, fun hk => (hw hk).elim, ?_, fun _ _ => rfl, ?_, ?_, fun _ => by simp [hc, hd], ?_,
    fun hk => (hr hk).elim, fun _ => rfl⟩
  · simp [endedAs, a, hp, SlotState.Ended, SlotState.code]
  · cases w <;> simp_all [Phase, SlotState.Stopped, SlotState.Ended, SlotState.code]
    all_goals split <;> simp_all
  · simpa [producedBy, takenFrom] using d
  · intro party c' hm hne
    have := f party c' (by simpa [takenFrom] using hm) hne
    simp [hp, SlotState.Stopped, SlotState.code] at this
  · simp
  · simp [SlotState.Stopped, SlotState.code]

theorem SlotInvariant.hand_over {s : ℕ} {slot : TaskSlot} {w : Worker} {u v : Ui}
    {h : List Observation} (inv : SlotInvariant s slot w u h) (hs : slot.state = .delivered)
    {c : Owned} (hc : slot.completion = some c) (hr : ¬ Releasing s v) (hd : ¬ Delivering s v) :
    SlotInvariant s { slot with completion := none } w v (.took s .deliver c :: h) := by
  obtain ⟨a, b, before, d, e, f, g, i, j, k, l⟩ := inv
  have hw : ¬ Worker.Unfinished w := fun hw => by simp [(before hw).1] at hc
  obtain ⟨c', hp, ho⟩ := d hw
  have ht : takes s h = [] ∧ c' = c := by
    rcases ho with ho | ho
    · exact ⟨ho.2, by simpa [hc] using ho.1.symm⟩
    · simp [hc] at ho
  refine ⟨by simpa [endedAs] using a, b, fun hk => (hw hk).elim, fun _ => ?_, fun _ _ => hs, ?_,
    ?_, fun _ => by simp [hd], fun _ hn => (hn rfl).elim, fun hk => (hr hk).elim,
    fun hk => (hd hk).elim⟩
  · exact ⟨c, by simp [producedBy, hp, ht.2], Or.inr ⟨rfl, .deliver, by simp [takenFrom, ht.1]⟩⟩
  · intro party c₁ hm hne
    simp [takenFrom, ht.1] at hm
    exact (hne hm.1).elim
  · intro hk; simp [hs] at hk

theorem invariant_take_other {t : Tasks} {s r : ℕ} (hr : r ≠ s) (party : Party) {w : Worker}
    {v : Ui} (h : SlotInvariant r (t.slot r) w v t.history) :
    SlotInvariant r ((takeCompletion t s party).slot r) w v (takeCompletion t s party).history := by
  unfold takeCompletion
  split
  · exact h
  · simp only [Tasks.observe, Tasks.setCompletion, Function.update_of_ne hr]
    exact h.other rfl rfl (by simp [takenFrom, hr.symm])

theorem worker_preserves {t : Tasks} (h : Invariant t) {e : Event} (he : Enabled t e) {s : ℕ}
    (hs : TaskAccounting.slotOf e = some s) : Invariant (next t e) := by
  intro r
  by_cases hr : r = s
  · subst hr
    have inv := h r
    cases e <;> simp only [TaskAccounting.slotOf, Option.some.injEq, reduceCtorEq] at hs <;>
      subst hs <;> simp only [Enabled] at he
    case begin =>
      rw [he.2] at inv
      simp only [next]
      split
      · rename_i hq
        simpa [Tasks.observe, Tasks.setWorker, Tasks.setState] using inv.begin hq
      · rename_i hq
        simpa [Tasks.setWorker] using inv.refuse hq
    case register =>
      rw [he] at inv
      simpa [next, Tasks.setWorker] using
        inv.advance (w := .running) id Iff.rfl (fun h => h.elim)
    case arm => simpa [next, Tasks.setInterrupt] using inv.hook true
    case disarm => simpa [next, Tasks.setInterrupt] using inv.hook false
    case store c =>
      rw [he] at inv
      simpa [next, Tasks.observe, Tasks.setWorker, Tasks.setCompletion] using inv.store c
    case exchange =>
      rw [he] at inv
      simp only [next]
      split
      · rename_i hq
        simpa [Tasks.setWorker, Tasks.setState] using inv.exchange hq
      · rename_i hq
        simpa [Tasks.setWorker] using inv.exchange_failed hq
    case settle r =>
      obtain ⟨published, he⟩ := he
      simp only [next]
      cases published with
      | true =>
        rw [he] at inv
        simpa [he, Tasks.setWorker] using
          inv.advance (w := .settled true) id Iff.rfl (fun h => h.elim)
      | false =>
        rw [he] at inv
        cases hc : (t.slot r).completion with
        | none =>
          simpa [he, Tasks.setWorker, takeCompletion, hc] using inv.nothing_back hc
        | some c =>
          simpa [he, Tasks.setWorker, takeCompletion, hc, Tasks.observe, Tasks.setCompletion]
            using inv.take_back hc
    case leave =>
      obtain ⟨published, he⟩ := he
      rw [he] at inv
      cases published <;>
        simpa [next, he, Tasks.setWorker] using
          inv.advance (w := .left _) id Iff.rfl (fun h => h.elim)
  · have inv := h r
    cases e <;> simp only [TaskAccounting.slotOf, Option.some.injEq, reduceCtorEq] at hs <;>
      subst hs <;> simp only [next]
    case begin =>
      split
      · simpa [Tasks.observe, Tasks.setWorker, Tasks.setState, hr] using
          inv.other (o := .ran _) rfl rfl rfl
      · simpa [Tasks.setWorker, hr] using inv
    case store s c =>
      simpa [Tasks.observe, Tasks.setWorker, Tasks.setCompletion, hr] using
        inv.other (o := .produced s c) rfl (by simp [producedBy, Ne.symm hr]) rfl
    case exchange =>
      split <;> simpa [Tasks.setWorker, Tasks.setState, hr] using inv
    case settle s =>
      split
      · simpa [Tasks.setWorker, hr] using inv
      · obtain ⟨_, fu, _, _, fw, _⟩ := TaskAccounting.takeCompletion_frame t s .finish
        simpa [Tasks.setWorker, hr, fu, fw] using invariant_take_other hr .finish inv
    all_goals simpa [Tasks.setWorker, Tasks.setInterrupt, hr] using inv

/-- A move of the UI thread between two positions outside every release and delivery. -/
theorem invariant_of_idle_move {t : Tasks} (h : Invariant t) {v : Ui} {counters : Counters}
    {live : List ℕ} (hr : ∀ s, Releasing s v ↔ Releasing s t.ui)
    (hd : ∀ s, Delivering s v ↔ Delivering s t.ui) :
    Invariant { t with ui := v, counters := counters, live := live } :=
  fun s => (h s).move (hr s) (hd s)

theorem ui_preserves {t : Tasks} (h : Invariant t) (books : TaskAccounting.Invariant t) :
    Invariant (uiStep t) := by
  unfold uiStep
  cases hu : t.ui with
  | idle => exact h
  | partition | drain | countIssued | pushLive =>
    exact invariant_of_idle_move h (by simp [hu, Releasing]) (by simp [hu, Delivering])
  | countDelivered =>
    exact invariant_of_idle_move h (by simp [hu, Releasing]) (by simp [hu, Delivering])
  | retainLive =>
    exact invariant_of_idle_move h (by simp [hu, Releasing]) (by simp [hu, Delivering])
  | stopCount =>
    exact invariant_of_idle_move h (by simp [hu, Releasing]) (by simp [hu, Delivering])
  | stopHook =>
    simp only
    split <;> exact invariant_of_idle_move h (by simp [hu, Releasing]) (by simp [hu, Delivering])
  | zero =>
    refine invariant_of_idle_move h ?_ ?_ <;> intro s <;> simp only [hu] <;> split <;>
      simp [Releasing, Delivering]
  | stopNext why ended after =>
    cases ended with
    | nil =>
      refine invariant_of_idle_move h ?_ ?_ <;> intro s <;> cases after <;>
        simp [hu, After.resume, Releasing, Delivering]
    | cons =>
      simp only
      split <;>
        exact invariant_of_idle_move h (by simp [hu, Releasing]) (by simp [hu, Delivering])
  | stopExchange why s current rest after =>
    have ho := books.stopping_open s (by simp [hu, TaskAccounting.stopping])
    simp only
    split
    · intro r
      by_cases hr : r = s
      · subst hr
        simpa [Tasks.observe, Tasks.setState] using
          (h r).stop (v := .stopCount why r rest after) ho why rfl (fun hd => hd)
      · have frame := ((h r).move (v := .stopCount why s rest after)
          (by simp [hu, Releasing, Ne.symm hr]) (by simp [hu, Delivering])).other
          (o := .ended s why.state) (by simp [endedAs, Ne.symm hr]) rfl rfl
        simpa [Tasks.observe, Tasks.setState, hr] using frame
    · exact invariant_of_idle_move h (by simp [hu, Releasing]) (by simp [hu, Delivering])
  | stopTake why s rest after =>
    obtain ⟨_, _, _, _, fw, _⟩ := TaskAccounting.takeCompletion_frame t s .stop
    intro r
    have hd : ¬ Delivering r (.stopHook why s rest after) := fun hd => hd
    have hrel : ¬ Releasing r (.stopHook why s rest after) := fun hr => hr
    by_cases hr : r = s
    · subst hr
      have hs := (h r).releasing (by rw [hu]; rfl)
      cases hc : (t.slot r).completion with
      | none => simpa [takeCompletion, hc] using (h r).release_none hs hc hrel hd
      | some c =>
        simpa [takeCompletion, hc, Tasks.observe, Tasks.setCompletion] using
          (h r).release hs hc hrel hd
    · have frame := (h r).move (v := .stopHook why s rest after)
        (by simp [hu, Releasing, Ne.symm hr]) (by simp [hu, Delivering])
      simpa [fw] using invariant_take_other hr .stop frame
  | create owner key =>
    intro r
    have hmove := (h r).move (v := .countIssued t.allocated) (by simp [hu, Releasing])
      (by simp [hu, Delivering])
    by_cases hr : r = t.allocated
    · subst hr
      obtain ⟨hq, hc, hw⟩ := books.fresh t.allocated (Nat.le_refl _)
      obtain ⟨a, b, c, d, e, f, g, i, j, k, l⟩ := hmove
      rw [hq] at a b e f g i j k l
      rw [hc] at c d g i j
      simp only [Function.update_self]
      exact ⟨a, b, c, d, e, f, g, i, j, k, l⟩
    · simpa [hr] using hmove
  | deliverExchange s =>
    simp only
    split
    · rename_i hp
      intro r
      by_cases hr : r = s
      · subst hr
        simpa [Tasks.observe, Tasks.setState] using
          (h r).deliver (v := .countDelivered r) hp (fun hr => hr) rfl
      · have frame := ((h r).move (v := .countDelivered s)
          (by simp [hu, Releasing]) (by simp [hu, Delivering, Ne.symm hr])).other
          (o := .ended s .delivered) (by simp [endedAs, Ne.symm hr]) rfl rfl
        simpa [Tasks.observe, Tasks.setState, hr] using frame
    · exact invariant_of_idle_move h (by simp [hu, Releasing]) (by simp [hu, Delivering])
  | deliverTake s =>
    obtain ⟨_, _, _, _, fw, _⟩ := TaskAccounting.takeCompletion_frame t s .deliver
    intro r
    by_cases hr : r = s
    · subst hr
      have hs := (h r).delivering (by rw [hu]; rfl)
      have hc := ((h r).delivered hs).mpr (by rw [hu]; rfl)
      obtain ⟨c, hc⟩ := Option.ne_none_iff_exists'.mp hc
      simpa [takeCompletion, hc, Tasks.observe, Tasks.setCompletion] using
        (h r).hand_over (v := .idle) hs hc (fun hr => hr) (fun hd => hd)
    · have frame := (h r).move (v := .idle) (by simp [hu, Releasing])
        (by simp [hu, Delivering, Ne.symm hr])
      simpa [fw] using invariant_take_other hr .deliver frame

theorem step_preserves_invariant {t : Tasks} (h : Invariant t)
    (books : TaskAccounting.Invariant t) {e : Event} (he : Enabled t e) :
    Invariant (next t e) := by
  cases hs : TaskAccounting.slotOf e with
  | some s => exact worker_preserves h he hs
  | none =>
    cases e with
    | ui => exact ui_preserves h books
    | call c =>
      have hu : t.ui = .idle := by cases c <;> simp_all [Enabled]
      refine invariant_of_idle_move h ?_ ?_ <;> intro s <;> cases c <;>
        simp only [enter, hu] <;> (try split) <;> simp [Releasing, Delivering]
    | _ => simp [TaskAccounting.slotOf] at hs

theorem reachable_slots {t : Tasks} (h : Reachable system t) : Invariant t :=
  (guarded_invariant (P := fun t => Invariant t ∧ TaskAccounting.Invariant t)
    ⟨initial_invariant, TaskAccounting.initial_invariant⟩
    (fun _ _ hs he => ⟨step_preserves_invariant hs.1 hs.2 he,
      TaskAccounting.step_preserves_invariant hs.2 he⟩) h).1

theorem ended_next {t : Tasks} (books : TaskAccounting.Invariant t) {e : Event}
    (he : Enabled t e) {s : ℕ} (hs : (t.slot s).state.Ended) :
    ((next t e).slot s).state.Ended := by
  cases hw : TaskAccounting.slotOf e with
  | some r => exact ((TaskAccounting.worker_frame books he hw).ended s).mpr hs
  | none =>
    cases e with
    | call c => exact hs
    | ui =>
      simp only [next, uiStep]
      split <;> try exact hs
      · split <;> exact hs
      · split
        · simp only [Tasks.observe, Tasks.setState, Function.update_apply]
          split
          · exact stopped_ended (why_stopped _)
          · exact hs
        · split <;> exact hs
      · simpa [TaskAccounting.takeCompletion_state] using hs
      · split <;> exact hs
      · have hne : s ≠ t.allocated := by
          rintro rfl
          simp [(books.fresh _ (Nat.le_refl _)).1, SlotState.Ended, SlotState.code] at hs
        simpa [hne] using hs
      · split
        · simp only [Tasks.observe, Tasks.setState, Function.update_apply]
          split
          · simp [SlotState.Ended]
          · exact hs
        · exact hs
      · simpa [TaskAccounting.takeCompletion_state] using hs
    | _ => simp [TaskAccounting.slotOf] at hw

theorem takeCompletion_history (t : Tasks) (s : ℕ) (party : Party) :
    ∃ l, (takeCompletion t s party).history = l ++ t.history ∧ ∀ r, .ran r ∉ l := by
  unfold takeCompletion
  split
  · exact ⟨[], rfl, by simp⟩
  · exact ⟨[_], rfl, by simp⟩

theorem history_next (t : Tasks) (e : Event) :
    ∃ l, (next t e).history = l ++ t.history ∧
      ∀ s, .ran s ∈ l → (t.slot s).state = .queued := by
  have quiet : ∀ {l : List Observation}, (∀ r, .ran r ∉ l) →
      ∀ s, .ran s ∈ l → (t.slot s).state = .queued := fun hl s hs => (hl s hs).elim
  cases e with
  | call | register | arm | disarm | leave => exact ⟨[], rfl, by simp⟩
  | store => exact ⟨[_], rfl, by simp⟩
  | begin s =>
    simp only [next]
    split
    · rename_i hq
      refine ⟨[.ran s], rfl, ?_⟩
      simpa using hq
    · exact ⟨[], rfl, by simp⟩
  | exchange => simp only [next]; split <;> exact ⟨[], rfl, by simp⟩
  | settle s =>
    simp only [next]
    split
    · exact ⟨[], rfl, by simp⟩
    · obtain ⟨l, hl, hr⟩ := takeCompletion_history t s .finish
      exact ⟨l, hl, quiet hr⟩
  | ui =>
    simp only [next, uiStep]
    cases hu : t.ui with
    | stopNext why ended after =>
      cases ended with
      | nil => exact ⟨[], rfl, by simp⟩
      | cons => simp only; split <;> exact ⟨[], rfl, by simp⟩
    | stopExchange =>
      simp only
      split
      · exact ⟨[_], rfl, by simp⟩
      · split <;> exact ⟨[], rfl, by simp⟩
    | stopTake why s =>
      obtain ⟨l, hl, hr⟩ := takeCompletion_history t s .stop
      exact ⟨l, hl, quiet hr⟩
    | stopHook => simp only; split <;> exact ⟨[], rfl, by simp⟩
    | deliverExchange =>
      simp only
      split
      · exact ⟨[_], rfl, by simp⟩
      · exact ⟨[], rfl, by simp⟩
    | deliverTake s =>
      obtain ⟨l, hl, hr⟩ := takeCompletion_history t s .deliver
      exact ⟨l, hl, quiet hr⟩
    | _ => exact ⟨[], rfl, by simp⟩

theorem execution_history {t u : Tasks} {es : List Event} (ht : Reachable system t)
    (h : Execution system t es u) :
    Reachable system u ∧ (∀ s, (t.slot s).state.Ended → (u.slot s).state.Ended) ∧
    ∃ l, u.history = l ++ t.history ∧ ∀ s, (t.slot s).state.Ended → .ran s ∉ l := by
  induction h with
  | refl => exact ⟨ht, fun _ hs => hs, [], rfl, by simp⟩
  | @tail v w es e _ k ih =>
    obtain ⟨hr, he, l, hl, hn⟩ := ih
    have hw := reachable_step hr k
    rcases k with ⟨ke, rfl⟩
    have books := reachable_accounts hr
    obtain ⟨l', hl', hq⟩ := history_next v e
    refine ⟨hw, fun s hs => ended_next books ke (he s hs), l' ++ l, by simp [hl', hl], ?_⟩
    intro s hs hm
    rcases List.mem_append.mp hm with hm | hm
    · have hopen := hq s hm
      have hend := he s hs
      simp [hopen, SlotState.Ended, SlotState.code] at hend
    · exact hn s hs hm

theorem ends_state {t : Tasks} (h : Reachable system t) (s : ℕ) :
    ends s t.history = if (t.slot s).state.Ended then [(t.slot s).state] else [] :=
  (reachable_slots h s).ends_eq

/-- However the steps of workers and of the UI thread interleave, a task ends at most
once; between calls the counters of the UI thread account for every task issued; and a
task stopped before it ran never runs, stopped at any point never delivers. -/
theorem lifetimes_end_once {t : Tasks} (h : Reachable system t) :
    (∀ s, (ends s t.history).length ≤ 1 ∧
      ∀ how ∈ ends s t.history, how = .delivered ∨ how = .superseded ∨ how = .cancelled) ∧
    (t.ui = .idle →
      t.counters.issued =
        t.counters.delivered + t.counters.superseded + t.counters.cancelled + t.live.length ∧
      (issuedAndSettled t.counters).1 =
        (issuedAndSettled t.counters).2 + reading t.live.length ∧
      ∀ s, s ∈ t.live ↔ s < t.allocated ∧ ends s t.history = []) ∧
    ∀ es u, Execution system t es u → ∀ s how, how ∈ ends s t.history → how ≠ .delivered →
      (.ran s ∉ t.history → .ran s ∉ u.history) ∧ ∀ c, (.deliver, c) ∉ takes s u.history := by
  refine ⟨?_, ?_, ?_⟩
  · intro s
    rw [ends_state h]
    split
    · rename_i he
      refine ⟨Nat.le_refl 1, ?_⟩
      simp only [List.mem_singleton, forall_eq]
      cases hs : (t.slot s).state <;> simp [hs, SlotState.Ended, SlotState.code] at he ⊢
    · simp
  · intro hu
    have hb := TaskAccounting.counters_balance h hu
    refine ⟨hb, ?_, fun s => ?_⟩
    · simp [issuedAndSettled, reading, hb]
    · rw [TaskAccounting.live_iff_open h hu, ends_state h]
      split <;> simp_all
  · intro es u hx s how hm hne
    rw [ends_state h] at hm
    split at hm
    · rename_i he
      rw [List.mem_singleton] at hm
      obtain ⟨hr, hend, l, hl, hn⟩ := execution_history h hx
      refine ⟨fun hq => ?_, fun c hc => ?_⟩
      · rw [hl, List.mem_append]
        exact fun ho => ho.elim (hn s he) hq
      · have hd := (reachable_slots hr s).by_deliver c hc
        have hsub : ends s u.history = [SlotState.delivered] := by
          rw [ends_state hr, hd]; rfl
        have hold : how ∈ ends s u.history := by
          rw [hl, ends, List.filterMap_append]
          refine List.mem_append_right _ ?_
          change how ∈ ends s t.history
          rw [ends_state h, if_pos he, hm]
          exact List.mem_singleton.mpr rfl
        rw [hsub, List.mem_singleton] at hold
        exact hne hold
    · simp at hm

def supersededRun : List Event :=
  [.call (.issue 7 "page"), .ui, .ui, .ui, .ui, .ui, .begin 0, .register 0, .store 0 ⟨5⟩,
    .call (.issue 7 "page"), .ui, .ui, .ui, .exchange 0, .settle 0, .ui, .ui, .ui, .ui,
    .ui, .ui, .ui, .leave 0, .begin 1, .register 1, .store 1 ⟨6⟩, .exchange 1,
    .call (.deliver 1), .ui, .ui, .ui, .ui]

theorem superseded_run_reachable : Reachable system (runTrace next initial supersededRun) :=
  valid_trace_reachable (reachable_initial _) (by decide)

theorem superseded_run_ends :
    (ends 0 (runTrace next initial supersededRun).history).length ≤ 1 ∧
      (runTrace next initial supersededRun).counters.issued = 2 :=
  ⟨((lifetimes_end_once superseded_run_reachable).1 0).1, by decide⟩

def dropped (s : ℕ) (history : List Observation) : List Owned :=
  (takes s history).filterMap fun take => if take.1 = .deliver then none else some take.2

def handed (s : ℕ) (history : List Observation) : List Owned :=
  (takes s history).filterMap fun take => if take.1 = .deliver then some take.2 else none

/-- A completion is produced at most once, and at every moment it is untouched in its
slot, or was taken out once: handed over exactly when its task was delivered, dropped
when the task was stopped. Once its worker and the UI thread have left a stopped slot,
nothing is left there. -/
theorem completion_has_one_owner {t : Tasks} (h : Reachable system t) (s : ℕ) :
    (produced s t.history = [] ∧ (t.slot s).completion = none ∧
        handed s t.history = [] ∧ dropped s t.history = []) ∨
    ∃ c, produced s t.history = [c] ∧
      (((t.slot s).completion = some c ∧ handed s t.history = [] ∧ dropped s t.history = [] ∧
          ((t.slot s).state.Stopped → Releasing s t.ui ∨ Worker.Returning (t.worker s)) ∧
          ((t.slot s).state = .delivered → Delivering s t.ui)) ∨
        ((t.slot s).completion = none ∧ handed s t.history = [c] ∧ dropped s t.history = [] ∧
          (t.slot s).state = .delivered) ∨
        ((t.slot s).completion = none ∧ handed s t.history = [] ∧ dropped s t.history = [c] ∧
          (t.slot s).state.Stopped)) := by
  have inv := reachable_slots h s
  by_cases hw : Worker.Unfinished (t.worker s)
  · obtain ⟨hc, hp, ht⟩ := inv.before hw
    exact Or.inl ⟨hp, hc, by simp [handed, ht], by simp [dropped, ht]⟩
  · obtain ⟨c, hp, ho⟩ := inv.after hw
    refine Or.inr ⟨c, hp, ?_⟩
    rcases ho with ⟨hc, ht⟩ | ⟨hc, party, ht⟩
    · refine Or.inl ⟨hc, by simp [handed, ht], by simp [dropped, ht], fun hs => ?_, fun hd => ?_⟩
      · exact inv.stopped hs (by simp [hc])
      · exact (inv.delivered hd).mp (by simp [hc])
    · have hm : (party, c) ∈ takes s t.history := by rw [ht]; exact List.mem_singleton.mpr rfl
      by_cases hd : party = .deliver
      · subst hd
        exact Or.inr (Or.inl ⟨hc, by simp [handed, ht], by simp [dropped, ht],
          inv.by_deliver c hm⟩)
      · exact Or.inr (Or.inr ⟨hc, by simp [handed, ht, hd], by simp [dropped, ht, hd],
          inv.by_other party c hm hd⟩)

theorem superseded_run_owner :
    dropped 0 (runTrace next initial supersededRun).history = [⟨5⟩] ∧
    handed 1 (runTrace next initial supersededRun).history = [⟨6⟩] ∧
    (produced 0 (runTrace next initial supersededRun).history = [] ∨
      ∃ c, produced 0 (runTrace next initial supersededRun).history = [c]) :=
  ⟨by decide, by decide,
    (completion_has_one_owner superseded_run_reachable 0).imp (fun h => h.1)
      fun ⟨c, hc, _⟩ => ⟨c, hc⟩⟩

end TaskCompletions
