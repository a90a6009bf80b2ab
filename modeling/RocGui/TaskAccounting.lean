import Mathlib.Data.List.Nodup
import RocGui.TaskLifetimes

/-! The books of the UI thread: which tasks are live, which are on their way out,
and why the counters add up whenever no call is in progress. -/
namespace TaskAccounting

open Transitions TaskLifetimes

def stopping : Ui → List ℕ
  | .stopNext _ ended _ => ended
  | .stopExchange _ s _ rest _ => s :: rest
  | .stopCount _ _ rest _ | .stopTake _ _ rest _ | .stopHook _ _ rest _ => rest
  | _ => []

def creating : Ui → Option ℕ
  | .countIssued s | .pushLive s => some s
  | _ => none

def delivering : Ui → Option ℕ
  | .countDelivered s | .retainLive s => some s
  | _ => none

def continuation : Ui → Option After
  | .partition _ _ after | .stopNext _ _ after | .stopExchange _ _ _ _ after
  | .stopCount _ _ _ after | .stopTake _ _ _ after | .stopHook _ _ _ after => some after
  | _ => none

/-- Tasks that have left `live` without being counted, or are counted without
being on it. -/
def owing : Ui → ℕ
  | .stopNext _ ended _ => ended.length
  | .stopExchange _ _ _ rest _ | .stopCount _ _ rest _ => rest.length + 1
  | .stopTake _ _ rest _ | .stopHook _ _ rest _ => rest.length
  | .countIssued _ | .pushLive _ | .countDelivered _ => 1
  | _ => 0

/-- Tasks counted as delivered but still on `live`, or allocated but not counted. -/
def excess : Ui → ℕ
  | .countIssued _ | .countDelivered _ | .retainLive _ => 1
  | _ => 0

def Balanced (c : Counters) (live : ℕ) (ui : Ui) : Prop :=
  c.issued + excess ui = c.delivered + c.superseded + c.cancelled + live + owing ui

/-- The counters `reset` has stored zero in before it reaches index `i`. -/
def Cleared (c : Counters) (i : ℕ) : Prop :=
  (0 < i → c.issued = 0) ∧ (2 < i → c.delivered = 0) ∧ (3 < i → c.superseded = 0) ∧
    (4 < i → c.cancelled = 0)

def Books (t : Tasks) : Prop :=
  match t.ui with
  | .zero i => t.live = [] ∧ Cleared t.counters i
  | ui => Balanced t.counters t.live.length ui

structure Invariant (t : Tasks) : Prop where
  live_nodup : t.live.Nodup
  live_named : ∀ s ∈ t.live, s < t.allocated
  live_open : ∀ s ∈ t.live, (t.slot s).state.Ended → delivering t.ui = some s
  stopping_nodup : (stopping t.ui).Nodup
  stopping_named : ∀ s ∈ stopping t.ui, s < t.allocated
  stopping_out : ∀ s ∈ stopping t.ui, s ∉ t.live
  stopping_open : ∀ s ∈ stopping t.ui, ¬ (t.slot s).state.Ended
  creating_named : ∀ s, creating t.ui = some s → s < t.allocated
  creating_out : ∀ s, creating t.ui = some s → s ∉ t.live
  creating_open : ∀ s, creating t.ui = some s → ¬ (t.slot s).state.Ended
  delivering_live : ∀ s, delivering t.ui = some s → s ∈ t.live
  delivering_ended : ∀ s, delivering t.ui = some s → (t.slot s).state.Ended
  tracked : ∀ s, s < t.allocated → ¬ (t.slot s).state.Ended →
    s ∈ t.live ∨ s ∈ stopping t.ui ∨ creating t.ui = some s
  fresh : ∀ s, t.allocated ≤ s →
    (t.slot s).state = .queued ∧ (t.slot s).completion = none ∧ t.worker s = .waiting
  clearing : continuation t.ui = some .zero → t.live = []
  books : Books t

theorem initial_invariant : Invariant initial := by
  constructor <;> simp [initial, stopping, creating, delivering, continuation, Books, Balanced,
    excess, owing]

/-- A worker's step as the books see it: nothing of the UI thread's moves, and
no task ends. -/
structure Frame (t u : Tasks) : Prop where
  live : u.live = t.live
  ui : u.ui = t.ui
  allocated : u.allocated = t.allocated
  issued : u.counters.issued = t.counters.issued
  delivered : u.counters.delivered = t.counters.delivered
  superseded : u.counters.superseded = t.counters.superseded
  cancelled : u.counters.cancelled = t.counters.cancelled
  ended : ∀ s, (u.slot s).state.Ended ↔ (t.slot s).state.Ended
  fresh : ∀ s, t.allocated ≤ s → u.slot s = t.slot s ∧ u.worker s = t.worker s

theorem invariant_of_frame {t u : Tasks} (h : Invariant t) (f : Frame t u) : Invariant u where
  live_nodup := f.live ▸ h.live_nodup
  live_named := by rw [f.live, f.allocated]; exact h.live_named
  live_open := by simpa only [f.live, f.ui, f.ended] using h.live_open
  stopping_nodup := f.ui ▸ h.stopping_nodup
  stopping_named := by simpa only [f.ui, f.allocated] using h.stopping_named
  stopping_out := by simpa only [f.ui, f.live] using h.stopping_out
  stopping_open := by simpa only [f.ui, f.ended] using h.stopping_open
  creating_named := by simpa only [f.ui, f.allocated] using h.creating_named
  creating_out := by simpa only [f.ui, f.live] using h.creating_out
  creating_open := by simpa only [f.ui, f.ended] using h.creating_open
  delivering_live := by simpa only [f.ui, f.live] using h.delivering_live
  delivering_ended := by simpa only [f.ui, f.ended] using h.delivering_ended
  tracked := by simpa only [f.ui, f.live, f.ended, f.allocated] using h.tracked
  fresh := by
    intro s hs
    rw [f.allocated] at hs
    rw [(f.fresh s hs).1, (f.fresh s hs).2]
    exact h.fresh s hs
  clearing := by rw [f.ui, f.live]; exact h.clearing
  books := by
    have hb := h.books
    unfold Books at hb ⊢
    rw [f.ui, f.live]
    cases hu : t.ui <;> simp only [hu] at hb ⊢ <;>
      simpa only [Balanced, Cleared, f.issued, f.delivered, f.superseded, f.cancelled] using hb

theorem allocated_of_started {t : Tasks} (h : Invariant t) {s : ℕ}
    (hw : t.worker s ≠ .waiting) : s < t.allocated := by
  by_contra hn
  exact hw (h.fresh s (Nat.not_lt.mp hn)).2.2

theorem takeCompletion_state (t : Tasks) (s r : ℕ) (party : Party) :
    ((takeCompletion t s party).slot r).state = (t.slot r).state := by
  unfold takeCompletion
  split
  · rfl
  · by_cases hr : r = s <;> simp [Tasks.observe, Tasks.setCompletion, hr]

theorem takeCompletion_frame (t : Tasks) (s : ℕ) (party : Party) :
    (takeCompletion t s party).live = t.live ∧ (takeCompletion t s party).ui = t.ui ∧
    (takeCompletion t s party).allocated = t.allocated ∧
    (takeCompletion t s party).counters = t.counters ∧
    (takeCompletion t s party).worker = t.worker ∧
    ∀ r, r ≠ s → (takeCompletion t s party).slot r = t.slot r := by
  unfold takeCompletion
  split
  · simp
  · simp +contextual [Tasks.observe, Tasks.setCompletion]

/-- The steps of a worker. -/
def slotOf : Event → Option ℕ
  | .call _ | .ui => none
  | .begin s | .register s | .arm s | .disarm s | .store s _ | .exchange s | .settle s
  | .leave s => some s

theorem worker_frame {t : Tasks} (h : Invariant t) {e : Event} (he : Enabled t e) {s : ℕ}
    (hs : slotOf e = some s) : Frame t (next t e) := by
  have hlt : s < t.allocated := by
    cases e <;> simp only [slotOf, Option.some.injEq, reduceCtorEq] at hs <;> subst hs
    case begin => exact he.1
    case settle => obtain ⟨p, he⟩ := he; exact allocated_of_started h (by simp [he])
    case leave => obtain ⟨p, he⟩ := he; exact allocated_of_started h (by simp [he])
    all_goals exact allocated_of_started h (by simp only [Enabled] at he; simp [he])
  have hne : ∀ r, t.allocated ≤ r → r ≠ s := fun r hr => by omega
  cases e <;> simp only [slotOf, Option.some.injEq, reduceCtorEq] at hs <;> subst hs
  case begin s =>
    simp only [next]
    split <;> constructor <;>
      simp +contextual [Tasks.observe, Tasks.setWorker, Tasks.setState, hne]
    intro r
    by_cases hr : r = s <;> simp_all [SlotState.Ended, SlotState.code]
  case settle s =>
    obtain ⟨fl, fu, fa, fc, fw, fo⟩ := takeCompletion_frame t s .finish
    have fs := fun r => takeCompletion_state t s r .finish
    simp only [next]
    split <;> constructor <;> simp +contextual [Tasks.setWorker, hne, fl, fu, fa, fc, fw, fo, fs]
  case exchange s =>
    simp only [next]
    split <;> constructor <;> simp +contextual [Tasks.setWorker, Tasks.setState, hne]
    intro r
    by_cases hr : r = s <;> simp_all [SlotState.Ended, SlotState.code]
  case register s | leave s =>
    constructor <;> simp +contextual [next, Tasks.setWorker, hne]
  all_goals
    constructor <;>
      simp +contextual [next, Tasks.observe, Tasks.setWorker, Tasks.setCompletion,
        Tasks.setInterrupt, hne]
    intro r
    rw [Function.update_apply]
    split <;> simp_all

theorem balanced_of_books {t : Tasks} (h : Invariant t) (hz : ∀ i, t.ui ≠ .zero i) :
    Balanced t.counters t.live.length t.ui := by
  have hb := h.books
  unfold Books at hb
  split at hb
  · exact (hz _ ‹_›).elim
  · exact hb

/-- `partition`: the tasks selected leave `live` together. -/
theorem partition_preserves {t : Tasks} (h : Invariant t) {why : Why} {selection : Selection}
    {after : After} (hu : t.ui = .partition why selection after) : Invariant (uiStep t) := by
  have hb := balanced_of_books h (by simp [hu])
  obtain ⟨a, b, c, d, e, g, i, j, k, l, m, m', n, o, p, q⟩ := h
  simp only [hu, stopping, creating, delivering, continuation, List.not_mem_nil,
    Option.some.injEq, reduceCtorEq, or_false] at c d e g i j k l m m' n p
  unfold uiStep
  rw [hu]
  constructor <;> simp only [stopping, creating, delivering, continuation, reduceCtorEq,
    Option.some.injEq, false_imp_iff, implies_true]
  · exact a.filter _
  · exact fun s hs => b s (List.mem_of_mem_filter hs)
  · exact fun s hs => c s (List.mem_of_mem_filter hs)
  · exact a.filter _
  · exact fun s hs => b s (List.mem_of_mem_filter hs)
  · intro s hs hl
    simp only [List.mem_filter, Bool.not_eq_true'] at hs hl
    simp [hs.2] at hl
  · exact fun s hs => c s (List.mem_of_mem_filter hs)
  · intro s hs ho
    have := n s hs ho
    by_cases hsel : selection.selects (t.slot s) <;> simp [this, hsel]
  · exact o
  · intro hz; simp [p hz]
  · have hlen := List.length_eq_length_filter_add (l := t.live)
      (fun s => selection.selects (t.slot s))
    simp only [Balanced, hu, excess, owing, Books] at hb ⊢
    omega

/-- A step that keeps the same tasks on their way only has to keep the books. -/
theorem invariant_of_move {t : Tasks} (h : Invariant t) {v : Ui} {c : Counters}
    (hs : stopping v = stopping t.ui) (hc : creating v = creating t.ui)
    (hd : delivering v = delivering t.ui)
    (ha : continuation v = some .zero → t.live = [])
    (hb : Books { t with ui := v, counters := c }) :
    Invariant { t with ui := v, counters := c } where
  live_nodup := h.live_nodup
  live_named := h.live_named
  live_open := by simpa only [hd] using h.live_open
  stopping_nodup := by simpa only [hs] using h.stopping_nodup
  stopping_named := by simpa only [hs] using h.stopping_named
  stopping_out := by simpa only [hs] using h.stopping_out
  stopping_open := by simpa only [hs] using h.stopping_open
  creating_named := by simpa only [hc] using h.creating_named
  creating_out := by simpa only [hc] using h.creating_out
  creating_open := by simpa only [hc] using h.creating_open
  delivering_live := by simpa only [hd] using h.delivering_live
  delivering_ended := by simpa only [hd] using h.delivering_ended
  tracked := by simpa only [hs, hc] using h.tracked
  fresh := h.fresh
  clearing := ha
  books := hb

/-- A take changes no state and no list, so the books may look past it. -/
theorem invariant_of_take {t : Tasks} (h : Invariant t) (s : ℕ) (party : Party) :
    Invariant (takeCompletion t s party) := by
  obtain ⟨fl, fu, fa, fc, fw, fo⟩ := takeCompletion_frame t s party
  have fs := fun r => takeCompletion_state t s r party
  refine invariant_of_frame h ⟨fl, fu, fa, by rw [fc], by rw [fc], by rw [fc], by rw [fc],
    fun r => by rw [fs], fun r hr => ⟨?_, by rw [fw]⟩⟩
  by_cases hrs : r = s
  · subst hrs
    simp [takeCompletion, (h.fresh r hr).2.1]
  · exact fo r hrs

theorem enter_preserves {t : Tasks} (h : Invariant t) (hu : t.ui = .idle) (c : Call) :
    Invariant { t with ui := enter c } := by
  have hb := balanced_of_books h (by simp [hu])
  rw [hu] at hb
  refine invariant_of_move (c := t.counters) h ?_ ?_ ?_ ?_ ?_ <;>
    cases c <;> simp only [enter, hu] <;> (try split) <;>
    simp_all [stopping, creating, delivering, continuation, Books, Balanced, excess, owing]

theorem drain_preserves {t : Tasks} (h : Invariant t) (hu : t.ui = .drain) :
    Invariant (uiStep t) := by
  have hb := balanced_of_books h (by simp [hu])
  obtain ⟨a, b, c, d, e, g, i, j, k, l, m, m', n, o, p, q⟩ := h
  simp only [hu, stopping, creating, delivering, continuation, List.not_mem_nil,
    reduceCtorEq, or_false] at c d e g i j k l m m' n p
  unfold uiStep
  rw [hu]
  constructor <;> simp only [stopping, creating, delivering, continuation, reduceCtorEq,
    false_imp_iff, implies_true, List.not_mem_nil, not_false_eq_true, List.nodup_nil, false_or,
    or_false]
  · exact a
  · exact b
  · exact fun s hs => c s hs
  · exact n
  · exact o
  · simpa [Balanced, hu, excess, owing, Books] using hb

theorem stopNext_preserves {t : Tasks} (h : Invariant t) {why : Why} {ended : List ℕ}
    {after : After} (hu : t.ui = .stopNext why ended after) : Invariant (uiStep t) := by
  have hb := balanced_of_books h (by simp [hu])
  unfold uiStep
  rw [hu]
  cases ended with
  | nil =>
    have hz : after = .zero → t.live = [] := fun ha => h.clearing (by simp [hu, continuation, ha])
    refine invariant_of_move (c := t.counters) h ?_ ?_ ?_ ?_ ?_ <;>
      cases after <;> simp_all [After.resume, stopping, creating, delivering, continuation, Books,
        Balanced, Cleared, excess, owing]
  | cons s rest =>
    have ho : ¬ (t.slot s).state.Ended := h.stopping_open s (by simp [hu, stopping])
    simp only [ho, if_false]
    refine invariant_of_move (c := t.counters) h (by simp [hu, stopping])
      (by simp [hu, creating]) (by simp [hu, delivering]) ?_ ?_
    · exact fun ha => h.clearing (by simpa [hu, continuation] using ha)
    · simpa [hu, Balanced, excess, owing, Books] using hb

/-- The exchange of `stop` is the only step that ends a task that is off `live`. -/
theorem stopExchange_preserves {t : Tasks} (h : Invariant t) {why : Why} {s : ℕ}
    {current : SlotState} {rest : List ℕ} {after : After}
    (hu : t.ui = .stopExchange why s current rest after) : Invariant (uiStep t) := by
  have hb := balanced_of_books h (by simp [hu])
  have ho : ¬ (t.slot s).state.Ended := h.stopping_open s (by simp [hu, stopping])
  unfold uiStep
  rw [hu]
  simp only
  by_cases hc : (t.slot s).state = current
  · rw [if_pos hc]
    obtain ⟨a, b, c, d, e, g, i, j, k, l, m, m', n, o, p, q⟩ := h
    simp only [hu, stopping, creating, delivering, continuation, List.nodup_cons,
      List.mem_cons, Option.some.injEq, reduceCtorEq, or_false] at c d e g i j k l m m' n p
    have hrest : ∀ r ∈ rest, r ≠ s := fun r hr he => d.1 (he ▸ hr)
    constructor <;> simp only [stopping, creating, delivering, continuation, reduceCtorEq,
      Option.some.injEq, false_imp_iff, implies_true, Tasks.observe, Tasks.setState, or_false]
    · exact a
    · exact b
    · intro r hr
      have hrs : r ≠ s := fun he => g s (Or.inl rfl) (he ▸ hr)
      simpa [hrs] using c r hr
    · exact d.2
    · exact fun r hr => e r (Or.inr hr)
    · exact fun r hr => g r (Or.inr hr)
    · intro r hr
      simpa [hrest r hr] using i r (Or.inr hr)
    · intro r hr hro
      by_cases hrs : r = s
      · subst hrs
        simp [Why.state, SlotState.Ended] at hro
        cases why <;> simp [SlotState.code] at hro
      · have := n r hr (by simpa [hrs] using hro)
        simpa [hrs] using this
    · intro r hr
      have hrs : r ≠ s := by have := e s (Or.inl rfl); omega
      simpa [hrs] using o r hr
    · exact p
    · simpa [Balanced, hu, excess, owing, Books] using hb
  · rw [if_neg hc, if_neg ho]
    refine invariant_of_move (c := t.counters) h (by simp [hu, stopping])
      (by simp [hu, creating]) (by simp [hu, delivering]) ?_ ?_
    · exact fun ha => h.clearing (by simpa [hu, continuation] using ha)
    · simpa [hu, Balanced, excess, owing, Books] using hb

theorem stopCount_preserves {t : Tasks} (h : Invariant t) {why : Why} {s : ℕ} {rest : List ℕ}
    {after : After} (hu : t.ui = .stopCount why s rest after) : Invariant (uiStep t) := by
  have hb := balanced_of_books h (by simp [hu])
  unfold uiStep
  rw [hu]
  refine invariant_of_move h (by simp [hu, stopping]) (by simp [hu, creating])
    (by simp [hu, delivering]) (fun ha => h.clearing (by simpa [hu, continuation] using ha)) ?_
  cases why <;> simp only [hu, Balanced, excess, owing, Books, bumpStopped] at hb ⊢ <;> omega

theorem create_preserves {t : Tasks} (h : Invariant t) {owner : ℕ} {key : String}
    (hu : t.ui = .create owner key) : Invariant (uiStep t) := by
  have hb := balanced_of_books h (by simp [hu])
  obtain ⟨a, b, c, d, e, g, i, j, k, l, m, m', n, o, p, q⟩ := h
  simp only [hu, stopping, creating, delivering, continuation, List.not_mem_nil,
    reduceCtorEq, or_false] at c d e g i j k l m m' n p
  unfold uiStep
  rw [hu]
  constructor <;> simp only [stopping, creating, delivering, continuation, reduceCtorEq,
    Option.some.injEq, false_imp_iff, implies_true, List.not_mem_nil, List.nodup_nil, false_or]
  · exact a
  · intro s hs; have := b s hs; omega
  · intro s hs
    have hne : s ≠ t.allocated := by have := b s hs; omega
    simpa [hne] using c s hs
  · rintro s rfl; omega
  · rintro s rfl hs; have := b _ hs; omega
  · rintro s rfl; simp [SlotState.Ended, SlotState.code]
  · intro s hs ho
    by_cases hne : s = t.allocated
    · exact Or.inr hne.symm
    · exact Or.inl (n s (by omega) (by simpa [hne] using ho))
  · intro s hs
    have hne : s ≠ t.allocated := by omega
    simpa [hne] using o s (by omega)
  · simp only [Balanced, hu, excess, owing, Books] at hb ⊢
    omega

theorem countIssued_preserves {t : Tasks} (h : Invariant t) {s : ℕ}
    (hu : t.ui = .countIssued s) : Invariant (uiStep t) := by
  have hb := balanced_of_books h (by simp [hu])
  unfold uiStep
  rw [hu]
  refine invariant_of_move h (by simp [hu, stopping]) (by simp [hu, creating])
    (by simp [hu, delivering]) (by simp [continuation]) ?_
  simp only [hu, Balanced, excess, owing, Books] at hb ⊢
  omega

theorem pushLive_preserves {t : Tasks} (h : Invariant t) {s : ℕ} (hu : t.ui = .pushLive s) :
    Invariant (uiStep t) := by
  have hb := balanced_of_books h (by simp [hu])
  obtain ⟨a, b, c, d, e, g, i, j, k, l, m, m', n, o, p, q⟩ := h
  simp only [hu, stopping, creating, delivering, continuation, List.not_mem_nil,
    Option.some.injEq, reduceCtorEq, false_or, forall_eq'] at c d e g i j k l m m' n p
  unfold uiStep
  rw [hu]
  constructor <;> simp only [stopping, creating, delivering, continuation, reduceCtorEq,
    false_imp_iff, implies_true, List.not_mem_nil, List.nodup_nil, or_false]
  · exact List.nodup_append.mpr ⟨a, List.nodup_singleton s, by
      rintro r hr q hq rfl; rw [List.mem_singleton] at hq; exact k (hq ▸ hr)⟩
  · intro r hr
    rcases List.mem_append.mp hr with hr | hr
    · exact b r hr
    · rw [List.mem_singleton] at hr; exact hr ▸ j
  · intro r hr
    rcases List.mem_append.mp hr with hr | hr
    · exact c r hr
    · rw [List.mem_singleton] at hr; exact hr ▸ l
  · intro r hr ho
    rcases n r hr ho with hl | hl
    · exact List.mem_append_left _ hl
    · simp [hl]
  · exact o
  · simp only [hu, Balanced, excess, owing, Books, List.length_append, List.length_singleton]
      at hb ⊢
    omega

/-- The stores of `reset` leave every counter of the equation at zero. -/
theorem zero_preserves {t : Tasks} (h : Invariant t) {i : ℕ} (hu : t.ui = .zero i) :
    Invariant (uiStep t) := by
  have hb := h.books
  simp only [Books, hu] at hb
  obtain ⟨hl, hc⟩ := hb
  unfold uiStep
  rw [hu]
  refine invariant_of_move h ?_ ?_ ?_ ?_ ?_
  · split <;> simp [hu, stopping]
  · split <;> simp [hu, creating]
  · split <;> simp [hu, delivering]
  · exact fun _ => hl
  · obtain ⟨h₀, h₂, h₃, h₄⟩ := hc
    match i with
    | 0 | 1 | 2 | 3 | 4 => simp_all [Books, Cleared, zeroCounter]
    | i + 5 =>
      rw [if_neg (show ¬ i + 5 < 5 by omega)]
      simp_all [Books, Balanced, excess, owing, zeroCounter]

theorem deliverExchange_preserves {t : Tasks} (h : Invariant t) {s : ℕ}
    (hu : t.ui = .deliverExchange s) : Invariant (uiStep t) := by
  have hb := balanced_of_books h (by simp [hu])
  unfold uiStep
  rw [hu]
  simp only
  split
  · rename_i hp
    have hopen : ¬ (t.slot s).state.Ended := by simp [hp, SlotState.Ended, SlotState.code]
    have hlt : s < t.allocated := by
      by_contra hn
      have := (h.fresh s (Nat.not_lt.mp hn)).1
      simp [this] at hp
    obtain ⟨a, b, c, d, e, g, i, j, k, l, m, m', n, o, p, q⟩ := h
    simp only [hu, stopping, creating, delivering, continuation, List.not_mem_nil,
      reduceCtorEq, or_false] at c d e g i j k l m m' n p
    constructor <;> simp only [stopping, creating, delivering, continuation, reduceCtorEq,
      Option.some.injEq, false_imp_iff, implies_true, Tasks.observe, Tasks.setState,
      List.not_mem_nil, List.nodup_nil, or_false]
    · exact a
    · exact b
    · intro r hr hro
      by_contra hne
      have hrs : r ≠ s := fun he => hne he.symm
      exact c r hr (by simpa [hrs] using hro)
    · rintro r rfl; exact n s hlt hopen
    · rintro r rfl; simp [SlotState.Ended]
    · intro r hr hro
      by_cases hrs : r = s
      · subst hrs; exact n r hlt hopen
      · exact n r hr (by simpa [hrs] using hro)
    · intro r hr
      have hrs : r ≠ s := by omega
      simpa [hrs] using o r hr
    · simp only [hu, Balanced, excess, owing, Books] at hb ⊢
      omega
  · refine invariant_of_move (c := t.counters) h (by simp [hu, stopping])
      (by simp [hu, creating]) (by simp [hu, delivering]) (by simp [continuation]) ?_
    simpa [hu, Balanced, excess, owing, Books] using hb

theorem countDelivered_preserves {t : Tasks} (h : Invariant t) {s : ℕ}
    (hu : t.ui = .countDelivered s) : Invariant (uiStep t) := by
  have hb := balanced_of_books h (by simp [hu])
  unfold uiStep
  rw [hu]
  refine invariant_of_move h (by simp [hu, stopping]) (by simp [hu, creating])
    (by simp [hu, delivering]) (by simp [continuation]) ?_
  simp only [hu, Balanced, excess, owing, Books] at hb ⊢
  omega

theorem retainLive_preserves {t : Tasks} (h : Invariant t) {s : ℕ} (hu : t.ui = .retainLive s) :
    Invariant (uiStep t) := by
  have hb := balanced_of_books h (by simp [hu])
  have hlen : (t.live.filter (· ≠ s)).length + 1 = t.live.length := by
    have hm := h.delivering_live s (by simp [hu, delivering])
    have hl := List.length_erase_add_one hm
    rw [h.live_nodup.erase_eq_filter s] at hl
    simpa [bne, beq_eq_decide] using hl
  obtain ⟨a, b, c, d, e, g, i, j, k, l, m, m', n, o, p, q⟩ := h
  simp only [hu, stopping, creating, delivering, continuation, List.not_mem_nil,
    Option.some.injEq, reduceCtorEq, or_false, forall_eq'] at c d e g i j k l m m' n p
  unfold uiStep
  rw [hu]
  constructor <;> simp only [stopping, creating, delivering, continuation, reduceCtorEq,
    false_imp_iff, implies_true, List.not_mem_nil, List.nodup_nil, or_false]
  · exact a.filter _
  · exact fun r hr => b r (List.mem_of_mem_filter hr)
  · intro r hr hro
    have hrs : r ≠ s := by simpa using List.of_mem_filter hr
    exact hrs (c r (List.mem_of_mem_filter hr) hro).symm
  · intro r hr hro
    have hm := n r hr hro
    have hrs : r ≠ s := by rintro rfl; exact hro m'
    simp [hm, hrs]
  · exact o
  · simp only [hu, Balanced, excess, owing, Books] at hb ⊢
    omega

theorem stopTake_preserves {t : Tasks} (h : Invariant t) {why : Why} {s : ℕ} {rest : List ℕ}
    {after : After} (hu : t.ui = .stopTake why s rest after) : Invariant (uiStep t) := by
  have hb := balanced_of_books h (by simp [hu])
  obtain ⟨fl, fu, fa, fc, fw, fo⟩ := takeCompletion_frame t s .stop
  unfold uiStep
  rw [hu]
  refine invariant_of_move (c := (takeCompletion t s .stop).counters)
    (invariant_of_take h s .stop) (by simp [fu, hu, stopping]) (by simp [fu, hu, creating])
    (by simp [fu, hu, delivering]) ?_ ?_
  · intro ha
    rw [fl]
    exact h.clearing (by simpa [hu, continuation] using ha)
  · simpa [hu, fc, fl, Balanced, excess, owing, Books] using hb

theorem stopHook_preserves {t : Tasks} (h : Invariant t) {why : Why} {s : ℕ} {rest : List ℕ}
    {after : After} (hu : t.ui = .stopHook why s rest after) : Invariant (uiStep t) := by
  have hb := balanced_of_books h (by simp [hu])
  unfold uiStep
  rw [hu]
  simp only
  split
  all_goals
    refine invariant_of_move h (by simp [hu, stopping]) (by simp [hu, creating])
      (by simp [hu, delivering]) (fun ha => h.clearing (by simpa [hu, continuation] using ha)) ?_
    simpa [hu, Balanced, excess, owing, Books] using hb

theorem deliverTake_preserves {t : Tasks} (h : Invariant t) {s : ℕ}
    (hu : t.ui = .deliverTake s) : Invariant (uiStep t) := by
  have hb := balanced_of_books h (by simp [hu])
  obtain ⟨fl, fu, fa, fc, fw, fo⟩ := takeCompletion_frame t s .deliver
  unfold uiStep
  rw [hu]
  refine invariant_of_move (c := (takeCompletion t s .deliver).counters)
    (invariant_of_take h s .deliver) (by simp [fu, hu, stopping]) (by simp [fu, hu, creating])
    (by simp [fu, hu, delivering]) (by simp [continuation]) ?_
  simpa [hu, fc, fl, Balanced, excess, owing, Books] using hb

theorem ui_preserves {t : Tasks} (h : Invariant t) (hu : t.ui ≠ .idle) :
    Invariant (uiStep t) := by
  cases hc : t.ui with
  | idle => exact (hu hc).elim
  | partition why selection after => exact partition_preserves h hc
  | drain => exact drain_preserves h hc
  | stopNext why ended after => exact stopNext_preserves h hc
  | stopExchange why s current rest after => exact stopExchange_preserves h hc
  | stopCount why s rest after => exact stopCount_preserves h hc
  | stopTake why s rest after => exact stopTake_preserves h hc
  | stopHook why s rest after => exact stopHook_preserves h hc
  | create owner key => exact create_preserves h hc
  | countIssued s => exact countIssued_preserves h hc
  | pushLive s => exact pushLive_preserves h hc
  | zero i => exact zero_preserves h hc
  | deliverExchange s => exact deliverExchange_preserves h hc
  | countDelivered s => exact countDelivered_preserves h hc
  | retainLive s => exact retainLive_preserves h hc
  | deliverTake s => exact deliverTake_preserves h hc

theorem step_preserves_invariant {t : Tasks} (h : Invariant t) {e : Event} (he : Enabled t e) :
    Invariant (next t e) := by
  cases hs : slotOf e with
  | some s => exact invariant_of_frame h (worker_frame h he hs)
  | none =>
    cases e with
    | call c => exact enter_preserves h (by cases c <;> simp_all [Enabled]) c
    | ui => exact ui_preserves h he
    | _ => simp [slotOf] at hs

theorem reachable_accounts {t : Tasks} (h : Reachable system t) : Invariant t :=
  guarded_invariant initial_invariant (fun _ _ hs he => step_preserves_invariant hs he) h

/-- Between calls of the UI thread a task is live exactly when it was issued and has not ended. -/
theorem live_iff_open {t : Tasks} (h : Reachable system t) (hu : t.ui = .idle) (s : ℕ) :
    s ∈ t.live ↔ s < t.allocated ∧ ¬ (t.slot s).state.Ended := by
  have inv := reachable_accounts h
  constructor
  · intro hs
    refine ⟨inv.live_named s hs, fun ho => ?_⟩
    simpa [hu, delivering] using inv.live_open s hs ho
  · rintro ⟨hs, ho⟩
    simpa [hu, stopping, creating] using inv.tracked s hs ho

theorem counters_balance {t : Tasks} (h : Reachable system t) (hu : t.ui = .idle) :
    t.counters.issued =
      t.counters.delivered + t.counters.superseded + t.counters.cancelled + t.live.length := by
  have hb := balanced_of_books (reachable_accounts h) (by simp [hu])
  simpa [Balanced, hu, excess, owing] using hb

end TaskAccounting
