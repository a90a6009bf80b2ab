import RocGui.TaskStops

/-! What a stop finds of a wait. Whatever the interleaving, a task that has ended is not left
blocked, every step that waits for a lock can be taken in time, and a stop counts at most one
interruption. -/
namespace StoppedWaits

open Transitions TaskStops

variable {ι : Type} {σ Q τ ρ ε : ι → Type}

section Statements

variable [DecidableEq ι] (M : (r : ι) → Monitor (σ r) (Q r) (τ r) (ρ r) (ε r)) (s : WaitState ι σ Q τ ρ)

def StopPending (k : ℕ) (r : ι) : Prop := ∃ j, s.stops j = .hooking k ∨ s.stops j = .waking k r

/-- The hook it is to run wakes the waits on `r`. -/
def WakePending (k : ℕ) (r : ι) : Prop := s.hooks k = some r ∧ StopPending s k r

inductive Party where
  | worker (k : ℕ)
  | stop (j : ℕ)

/-- A party that is neither at rest nor blocked on a condition. -/
def Busy : Party → Prop
  | .worker k => match s.workers k with
    | .idle | .running | .blocked _ _ | .finished => False
    | _ => True
  | .stop j => match s.stops j with
    | .hooking _ | .waking _ _ => True
    | .idle | .done _ => False

def CanStep : Party → Prop
  | .worker k => ∀ now, (advance M s k now).isSome
  | .stop j => (advanceStop s j).isSome

/-- The lock that a party takes next is held by another one. -/
def Awaits : Party → Party → Prop
  | .worker k, .stop j => match s.workers k with
    | .arming _ _ | .disarming _ _ => s.hookHeld k = some j
    | _ => False
  | .worker k, .worker k' => match s.workers k with
    | .locking r _ | .relocking r _ => s.held r = some k'
    | _ => False
  | .stop j, .stop j' => ∃ k, s.stops j = .hooking k ∧ s.hookHeld k = some j'
  | .stop j, .worker k' => ∃ k r, s.stops j = .waking k r ∧ s.held r = some k'

/-- The party steps, or what it waits for does, or what that waits for. -/
def Moves (p : Party) : Prop :=
  CanStep M s p ∨ ∃ q, Awaits s p q ∧ (CanStep M s q ∨ ∃ q', Awaits s q q' ∧ CanStep M s q')

structure Wakeful : Prop where
  awakened : ∀ k r q, (s.status k).stopped = true → s.workers k = .blocked r q → WakePending s k r
  moving : ∀ p, Busy s p → Moves M s p
  once : ∀ j, s.interrupted j ≤ 1

end Statements

section Invariant

def holds : Stage ι Q τ ρ → Option ι
  | .entering r _ | .checking r _ | .deciding r _ | .leaving r _ _ => some r
  | _ => none

def armed : Stage ι Q τ ρ → Option ι
  | .locking r _ | .entering r _ | .checking r _ | .deciding r _ | .blocked r _ | .relocking r _
  | .leaving r _ _ | .disarming r _ => some r
  | .idle | .running | .arming _ _ | .finished => none

/-- Where a worker has seen that its task goes on, and has not looked again. -/
def sleeps : Stage ι Q τ ρ → Option ι
  | .deciding r _ | .blocked r _ => some r
  | _ => none

structure Keeps (s : WaitState ι σ Q τ ρ) : Prop where
  holders : ∀ r k, s.held r = some k ↔ holds (s.workers k) = some r
  wakers : ∀ k j, s.hookHeld k = some j ↔ ∃ r, s.stops j = .waking k r
  hooked : ∀ j k r, s.stops j = .waking k r → s.hooks k = some r
  arms : ∀ k r, armed (s.workers k) = some r → s.hooks k = some r
  pending : ∀ k r, (s.status k).stopped = true → sleeps (s.workers k) = some r → StopPending s k r
  fresh : ∀ j, s.stops j = .idle ∨ (∃ k, s.stops j = .hooking k) → s.interrupted j = 0
  once : ∀ j, s.interrupted j ≤ 1

variable {s s' : WaitState ι σ Q τ ρ}

theorem armed_of_sleeps {stage : Stage ι Q τ ρ} {r : ι} (h : sleeps stage = some r) :
    armed stage = some r := by
  cases stage with
  | deciding | blocked => exact h
  | _ => cases h

/-- A worker moves on: its lock is accounted for, its hook is armed where it waits, and it goes
to sleep only while its task goes on. -/
theorem keeps_worker {k : ℕ} (h : Keeps s) (stage : Stage ι Q τ ρ)
    (hworkers : s'.workers = Function.update s.workers k stage)
    (holders : ∀ r k', s'.held r = some k' ↔ holds (s'.workers k') = some r)
    (hhooks : ∀ k', k' ≠ k → s'.hooks k' = s.hooks k')
    (hwaking : ∀ j r, s.stops j = .waking k r → s'.hooks k = some r)
    (harmed : ∀ r, armed stage = some r → s'.hooks k = some r)
    (hsleeps : ∀ r, (s'.status k).stopped = true → sleeps stage = some r → sleeps (s.workers k) = some r)
    (hstatus : ∀ k', (s'.status k').stopped = true → (s.status k').stopped = true)
    (hstops : s'.stops = s.stops) (hhookHeld : s'.hookHeld = s.hookHeld)
    (hinterrupted : s'.interrupted = s.interrupted) : Keeps s' := by
  have here : s'.workers k = stage := by rw [hworkers, Function.update_self]
  have other {i : ℕ} (hi : i ≠ k) : s'.workers i = s.workers i := by
    rw [hworkers, Function.update_of_ne hi]
  have pending {i : ℕ} {r : ι} (hp : StopPending s i r) : StopPending s' i r := by
    unfold StopPending
    rw [hstops]
    exact hp
  refine ⟨holders, fun i j => ?_, fun j i r hj => ?_, fun i r hi => ?_, fun i r hstopped hi => ?_,
    fun j hj => ?_, fun j => ?_⟩
  · rw [hhookHeld, hstops]
    exact h.wakers i j
  · rw [hstops] at hj
    by_cases hik : i = k
    · subst hik
      exact hwaking j r hj
    · rw [hhooks i hik]
      exact h.hooked j i r hj
  · by_cases hik : i = k
    · subst hik
      exact harmed r (here ▸ hi)
    · rw [hhooks i hik]
      exact h.arms i r (other hik ▸ hi)
  · by_cases hik : i = k
    · subst hik
      exact pending (h.pending i r (hstatus i hstopped) (hsleeps r hstopped (here ▸ hi)))
    · exact pending (h.pending i r (hstatus i hstopped) (other hik ▸ hi))
  · rw [hinterrupted]
    exact h.fresh j (hstops ▸ hj)
  · rw [hinterrupted]
    exact h.once j

theorem holders_same {k : ℕ} {stage : Stage ι Q τ ρ} (h : Keeps s)
    (hworkers : s'.workers = Function.update s.workers k stage) (hheld : s'.held = s.held)
    (hsame : holds stage = holds (s.workers k)) (r : ι) (i : ℕ) :
    s'.held r = some i ↔ holds (s'.workers i) = some r := by
  rw [hheld, hworkers]
  by_cases hi : i = k
  · subst hi
    rw [Function.update_self, hsame]
    exact h.holders r i
  · rw [Function.update_of_ne hi]
    exact h.holders r i

variable [DecidableEq ι]

theorem holders_lock {k : ℕ} {r : ι} {stage : Stage ι Q τ ρ} (h : Keeps s)
    (hworkers : s'.workers = Function.update s.workers k stage)
    (hheld : s'.held = Function.update s.held r (some k)) (hfree : s.held r = none)
    (hbefore : holds (s.workers k) = none) (hafter : holds stage = some r) (r' : ι) (i : ℕ) :
    s'.held r' = some i ↔ holds (s'.workers i) = some r' := by
  rw [hheld, hworkers]
  by_cases hi : i = k
  · subst hi
    rw [Function.update_self, hafter]
    by_cases hr : r' = r
    · subst hr
      rw [Function.update_self]
      exact ⟨fun _ => rfl, fun _ => rfl⟩
    · rw [Function.update_of_ne hr]
      refine ⟨fun hold => ?_, fun heq => absurd (Option.some.inj heq).symm hr⟩
      cases hbefore.symm.trans ((h.holders r' i).mp hold)
  · rw [Function.update_of_ne hi]
    by_cases hr : r' = r
    · subst hr
      rw [Function.update_self]
      refine ⟨fun heq => absurd (Option.some.inj heq).symm hi, fun hold => ?_⟩
      cases hfree.symm.trans ((h.holders r' i).mpr hold)
    · rw [Function.update_of_ne hr]
      exact h.holders r' i

theorem holders_unlock {k : ℕ} {r : ι} {stage : Stage ι Q τ ρ} (h : Keeps s)
    (hworkers : s'.workers = Function.update s.workers k stage)
    (hheld : s'.held = Function.update s.held r none) (hbefore : holds (s.workers k) = some r)
    (hafter : holds stage = none) (r' : ι) (i : ℕ) :
    s'.held r' = some i ↔ holds (s'.workers i) = some r' := by
  rw [hheld, hworkers]
  have hmine : s.held r = some k := (h.holders r k).mpr hbefore
  by_cases hi : i = k
  · subst hi
    rw [Function.update_self, hafter]
    refine ⟨fun heq => ?_, nofun⟩
    by_cases hr : r' = r
    · rw [hr, Function.update_self] at heq
      cases heq
    · rw [Function.update_of_ne hr] at heq
      have := Option.some.inj (hbefore.symm.trans ((h.holders r' i).mp heq))
      exact absurd this.symm hr
  · rw [Function.update_of_ne hi]
    by_cases hr : r' = r
    · subst hr
      rw [Function.update_self]
      refine ⟨nofun, fun hold => ?_⟩
      have := Option.some.inj (hmine.symm.trans ((h.holders r' i).mpr hold))
      exact absurd this.symm hi
    · rw [Function.update_of_ne hr]
      exact h.holders r' i

end Invariant

section Workers

variable [DecidableEq ι] {M : (r : ι) → Monitor (σ r) (Q r) (τ r) (ρ r) (ε r)}
  {s s' : WaitState ι σ Q τ ρ} {k now : ℕ}

theorem keeps_lock {r : ι} {stage : Stage ι Q τ ρ} (h : Keeps s) (hlock : lock s r k stage = some s')
    (hbefore : holds (s.workers k) = none) (hafter : holds stage = some r)
    (harmed : armed (s.workers k) = some r) (hstage : armed stage = some r)
    (hsleeps : sleeps stage = none) : Keeps s' := by
  unfold lock at hlock
  split at hlock
  · rename_i hfree
    obtain rfl := Option.some.inj hlock
    refine keeps_worker h stage (k := k) rfl ?_ (fun _ _ => rfl) (h.hooked · k) ?_ ?_
      (fun _ hs => hs) rfl rfl rfl
    · exact holders_lock h rfl rfl hfree hbefore hafter
    · intro r' hr'
      rw [← hr', hstage]
      exact h.arms k r harmed
    · intro r' _ hr'
      cases hsleeps.symm.trans hr'
  · cases hlock

omit [DecidableEq ι] in
theorem keeps_hook {hook : Option ι} {stage : Stage ι Q τ ρ} (h : Keeps s)
    (hset : setHook s k hook stage = some s') (hholds : holds stage = holds (s.workers k))
    (hstage : ∀ r, armed stage = some r → hook = some r) (hsleeps : sleeps stage = none) : Keeps s' := by
  unfold setHook at hset
  split at hset
  · rename_i hfree
    obtain rfl := Option.some.inj hset
    refine keeps_worker h stage (k := k) rfl ?_ ?_ ?_ ?_ ?_ (fun _ hs => hs) rfl rfl rfl
    · exact holders_same h rfl rfl hholds
    · intro i hi
      exact Function.update_of_ne hi _ _
    · intro j r hj
      cases hfree.symm.trans ((h.wakers k j).mpr ⟨r, hj⟩)
    · intro r hr
      exact (Function.update_self _ _ _).trans (hstage r hr)
    · intro r _ hr
      cases hsleeps.symm.trans hr
  · cases hset

theorem keeps_advance (h : Keeps s) (hstep : advance M s k now = some s') : Keeps s' := by
  unfold advance at hstep
  cases hstage : s.workers k with
  | arming r q =>
    rw [hstage] at hstep
    exact keeps_hook h hstep (by rw [hstage]; rfl) (fun _ hr => hr) rfl
  | locking r q =>
    rw [hstage] at hstep
    exact keeps_lock h hstep (by rw [hstage]; rfl) rfl (by rw [hstage]; rfl) rfl rfl
  | relocking r q =>
    rw [hstage] at hstep
    exact keeps_lock h hstep (by rw [hstage]; rfl) rfl (by rw [hstage]; rfl) rfl rfl
  | entering r q =>
    rw [hstage] at hstep
    have hhook : s.hooks k = some r := h.arms k r (by rw [hstage]; rfl)
    dsimp only at hstep
    cases henter : (M r).enter q (s.resources r) with
    | error answer =>
      rw [henter] at hstep
      obtain rfl := Option.some.inj hstep
      refine keeps_worker h _ (k := k) rfl ?_ (fun _ _ => rfl) (h.hooked · k) (fun r' hr' => ?_) nofun
        (fun _ hs => hs) rfl rfl rfl
      · exact holders_unlock h rfl rfl (by rw [hstage]; rfl) rfl
      · exact hhook.trans hr'
    | ok x =>
      rw [henter] at hstep
      obtain rfl := Option.some.inj hstep
      refine keeps_worker h _ (k := k) rfl ?_ (fun _ _ => rfl) (h.hooked · k) (fun r' hr' => ?_) nofun
        (fun _ hs => hs) rfl rfl rfl
      · exact holders_same h rfl rfl (by rw [hstage]; rfl)
      · exact hhook.trans hr'
  | checking r q =>
    rw [hstage] at hstep
    have hhook : s.hooks k = some r := h.arms k r (by rw [hstage]; rfl)
    dsimp only at hstep
    cases hpoll : (M r).poll q (s.status k).stopped now (s.resources r) with
    | some answer =>
      rw [hpoll] at hstep
      obtain rfl := Option.some.inj hstep
      refine keeps_worker h _ (k := k) rfl ?_ (fun _ _ => rfl) (h.hooked · k) (fun r' hr' => ?_) nofun
        (fun _ hs => hs) rfl rfl rfl
      · exact holders_same h rfl rfl (by rw [hstage]; rfl)
      · exact hhook.trans hr'
    | none =>
      rw [hpoll] at hstep
      obtain rfl := Option.some.inj hstep
      refine keeps_worker h _ (k := k) rfl ?_ (fun _ _ => rfl) (h.hooked · k) (fun r' hr' => ?_) ?_
        (fun _ hs => hs) rfl rfl rfl
      · exact holders_same h rfl rfl (by rw [hstage]; rfl)
      · exact hhook.trans hr'
      · -- a wait that goes to sleep has seen that its task goes on
        intro r' hstopped _
        change (s.status k).stopped = true at hstopped
        rw [hstopped] at hpoll
        have heeds := (M r).heeds q now (s.resources r)
        rw [hpoll] at heeds
        cases heeds
  | deciding r q =>
    rw [hstage] at hstep
    have hhook : s.hooks k = some r := h.arms k r (by rw [hstage]; rfl)
    obtain rfl := Option.some.inj hstep
    refine keeps_worker h _ (k := k) rfl ?_ (fun _ _ => rfl) (h.hooked · k) (fun r' hr' => ?_) ?_
      (fun _ hs => hs) rfl rfl rfl
    · exact holders_unlock h rfl rfl (by rw [hstage]; rfl) rfl
    · exact hhook.trans hr'
    · intro r' _ hr'
      rw [hstage]
      exact hr'
  | leaving r q t =>
    rw [hstage] at hstep
    have hhook : s.hooks k = some r := h.arms k r (by rw [hstage]; rfl)
    obtain rfl := Option.some.inj hstep
    refine keeps_worker h _ (k := k) rfl ?_ (fun _ _ => rfl) (h.hooked · k) (fun r' hr' => ?_) nofun
      (fun _ hs => hs) rfl rfl rfl
    · exact holders_unlock h rfl rfl (by rw [hstage]; rfl) rfl
    · exact hhook.trans hr'
  | disarming r answer =>
    rw [hstage] at hstep
    exact keeps_hook h hstep (by rw [hstage]; rfl) nofun rfl
  | idle | running | blocked | finished =>
    rw [hstage] at hstep
    cases hstep

end Workers

section Stops

variable {s s' : WaitState ι σ Q τ ρ} {j k : ℕ}

/-- A call of `stop` moves on: the waits it was to wake are awake, or it still is to wake them. -/
theorem keeps_stop (h : Keeps s) (stage : StopStage ι)
    (hstops : s'.stops = Function.update s.stops j stage)
    (hworkers : s'.workers = s.workers) (hheld : s'.held = s.held) (hhooks : s'.hooks = s.hooks)
    (wakers : ∀ k i, s'.hookHeld k = some i ↔ ∃ r, s'.stops i = .waking k r)
    (hooked : ∀ k r, stage = .waking k r → s.hooks k = some r)
    (pending : ∀ k r, (s'.status k).stopped = true → sleeps (s.workers k) = some r →
      stage = .hooking k ∨ stage = .waking k r ∨
        ∃ i, i ≠ j ∧ (s.stops i = .hooking k ∨ s.stops i = .waking k r))
    (counts : ∀ i, i ≠ j → s'.interrupted i = s.interrupted i)
    (fresh : stage = .idle ∨ (∃ k, stage = .hooking k) → s'.interrupted j = 0)
    (once : s'.interrupted j ≤ 1) : Keeps s' := by
  have here : s'.stops j = stage := by rw [hstops, Function.update_self]
  have other {i : ℕ} (hi : i ≠ j) : s'.stops i = s.stops i := by
    rw [hstops, Function.update_of_ne hi]
  refine ⟨fun r i => ?_, wakers, fun i k r hi => ?_, fun k r hk => ?_, fun k r hstopped hk => ?_,
    fun i hi => ?_, fun i => ?_⟩
  · rw [hheld, hworkers]
    exact h.holders r i
  · rw [hhooks]
    by_cases hij : i = j
    · subst hij
      exact hooked k r (here ▸ hi)
    · exact h.hooked i k r (other hij ▸ hi)
  · rw [hhooks]
    exact h.arms k r (hworkers ▸ hk)
  · rcases pending k r hstopped (hworkers ▸ hk) with hhooking | hwaking | ⟨i, hij, hi⟩
    · exact ⟨j, .inl (here.trans hhooking)⟩
    · exact ⟨j, .inr (here.trans hwaking)⟩
    · exact ⟨i, by rwa [other hij]⟩
  · by_cases hij : i = j
    · subst hij
      exact fresh (here ▸ hi)
    · rw [counts i hij]
      exact h.fresh i (other hij ▸ hi)
  · by_cases hij : i = j
    · exact hij ▸ once
    · rw [counts i hij]
      exact h.once i

theorem wakers_same {stage : StopStage ι} (h : Keeps s)
    (hstops : s'.stops = Function.update s.stops j stage) (hhookHeld : s'.hookHeld = s.hookHeld)
    (hbefore : ∀ k r, s.stops j ≠ .waking k r) (hafter : ∀ k r, stage ≠ .waking k r) (k i : ℕ) :
    s'.hookHeld k = some i ↔ ∃ r, s'.stops i = .waking k r := by
  rw [hhookHeld, hstops]
  by_cases hij : i = j
  · subst hij
    rw [Function.update_self]
    refine ⟨fun hold => ?_, fun ⟨r, hr⟩ => absurd hr (hafter k r)⟩
    obtain ⟨r, hr⟩ := (h.wakers k i).mp hold
    exact absurd hr (hbefore k r)
  · rw [Function.update_of_ne hij]
    exact h.wakers k i

theorem keeps_startStop {why : TaskStatus} (h : Keeps s) (hstep : startStop s j k why = some s') :
    Keeps s' := by
  unfold startStop at hstep
  cases hstop : s.stops j with
  | idle =>
    rw [hstop] at hstep
    dsimp only at hstep
    have resting : ∀ k r, s.stops j ≠ .waking k r := by
      intro k r hj
      cases hstop.symm.trans hj
    have elsewhere {i : ℕ} {r : ι} (hp : StopPending s i r) :
        ∃ m, m ≠ j ∧ (s.stops m = .hooking i ∨ s.stops m = .waking i r) := by
      obtain ⟨m, hm⟩ := hp
      refine ⟨m, fun hmj => ?_, hm⟩
      subst hmj
      rw [hstop] at hm
      rcases hm with hm | hm <;> cases hm
    by_cases hsettled : (s.status k).settled = true
    · rw [if_pos hsettled] at hstep
      obtain rfl := Option.some.inj hstep
      refine keeps_stop h _ (j := j) rfl rfl rfl rfl ?_ nofun (fun i r hstopped hi => ?_) (fun _ _ => rfl)
        (fun hdone => ?_) (h.once j)
      · exact wakers_same h rfl rfl resting nofun
      · exact .inr (.inr (elsewhere (h.pending i r hstopped hi)))
      · rcases hdone with hdone | ⟨_, hdone⟩ <;> cases hdone
    · rw [if_neg hsettled] at hstep
      by_cases hwhy : why.stopped = true
      · rw [if_pos hwhy] at hstep
        obtain rfl := Option.some.inj hstep
        refine keeps_stop h _ (j := j) rfl rfl rfl rfl ?_ nofun (fun i r hstopped hi => ?_)
          (fun _ _ => rfl) (fun _ => h.fresh j (.inl hstop)) (h.once j)
        · exact wakers_same h rfl rfl resting nofun
        · by_cases hik : i = k
          · exact .inl (hik ▸ rfl)
          · change (Function.update s.status k why i).stopped = true at hstopped
            rw [Function.update_of_ne hik] at hstopped
            exact .inr (.inr (elsewhere (h.pending i r hstopped hi)))
      · rw [if_neg hwhy] at hstep
        cases hstep
  | hooking | waking | done =>
    rw [hstop] at hstep
    cases hstep

variable [DecidableEq ι]

theorem keeps_notifyAll (h : Keeps s) (r : ι) : Keeps (notifyAll s r) := by
  have hholds (stage : Stage ι Q τ ρ) : holds (notified r stage) = holds stage := by
    cases stage with
    | blocked r' q =>
      rw [notified]
      by_cases hr : r' = r
      · rw [if_pos hr]
        rfl
      · rw [if_neg hr]
    | _ => rfl
  have harmed (stage : Stage ι Q τ ρ) : armed (notified r stage) = armed stage := by
    cases stage with
    | blocked r' q =>
      rw [notified]
      by_cases hr : r' = r
      · rw [if_pos hr]
        rfl
      · rw [if_neg hr]
    | _ => rfl
  have hsleeps {stage : Stage ι Q τ ρ} {r' : ι} (hs : sleeps (notified r stage) = some r') :
      sleeps stage = some r' := by
    cases stage with
    | blocked r'' q =>
      rw [notified] at hs
      by_cases hr : r'' = r
      · rw [if_pos hr] at hs
        cases hs
      · rwa [if_neg hr] at hs
    | deciding => exact hs
    | _ => cases hs
  refine ⟨fun r' i => ?_, h.wakers, h.hooked, fun i r' hi => ?_, fun i r' hstopped hi => ?_, h.fresh,
    h.once⟩
  · change s.held r' = some i ↔ holds (notified r (s.workers i)) = some r'
    rw [hholds]
    exact h.holders r' i
  · exact h.arms i r' ((harmed _).symm.trans hi)
  · exact h.pending i r' hstopped (hsleeps hi)

theorem held_of_sleeps_notified {r : ι} (h : Keeps s) (hk : sleeps ((notifyAll s r).workers k) = some r) :
    s.held r = some k := by
  change sleeps (notified r (s.workers k)) = some r at hk
  rw [h.holders]
  cases hstage : s.workers k with
  | deciding r' q =>
    rw [hstage] at hk
    exact hk
  | blocked r' q =>
    rw [hstage, notified] at hk
    by_cases hr : r' = r
    · rw [if_pos hr] at hk
      cases hk
    · rw [if_neg hr] at hk
      exact absurd (Option.some.inj hk) hr
  | _ =>
    rw [hstage] at hk
    cases hk

theorem keeps_advanceStop (h : Keeps s) (hstep : advanceStop s j = some s') : Keeps s' := by
  unfold advanceStop at hstep
  cases hstop : s.stops j with
  | hooking k =>
    rw [hstop] at hstep
    dsimp only at hstep
    -- a wait that this call is to wake is one of task `k`
    have elsewhere {i : ℕ} {r : ι} (hp : StopPending s i r) (hik : i ≠ k) :
        ∃ m, m ≠ j ∧ (s.stops m = .hooking i ∨ s.stops m = .waking i r) := by
      obtain ⟨m, hm⟩ := hp
      refine ⟨m, fun hmj => ?_, hm⟩
      subst hmj
      rw [hstop] at hm
      rcases hm with hm | hm
      · exact hik (StopStage.hooking.inj hm).symm
      · cases hm
    cases hfree : s.hookHeld k with
    | some _ =>
      rw [hfree] at hstep
      cases hstep
    | none =>
      rw [hfree] at hstep
      obtain rfl := Option.some.inj hstep
      cases hhook : s.hooks k with
      | none =>
        refine keeps_stop h _ (j := j) rfl rfl rfl rfl ?_ nofun (fun i r hstopped hi => ?_)
          (fun _ _ => rfl) (fun hdone => ?_) (h.once j)
        · refine wakers_same h rfl rfl (fun k' r' hj => ?_) nofun
          cases hstop.symm.trans hj
        · by_cases hik : i = k
          · subst hik
            cases hhook.symm.trans (h.arms i r (armed_of_sleeps hi))
          · exact .inr (.inr (elsewhere (h.pending i r hstopped hi) hik))
        · rcases hdone with hdone | ⟨_, hdone⟩ <;> cases hdone
      | some r =>
        refine keeps_stop h (.waking k r) (j := j) rfl rfl rfl rfl (fun k' i => ?_) ?_
          (fun i r' hstopped hi => ?_) (fun i hij => Function.update_of_ne hij _ _) (fun hdone => ?_) ?_
        · change Function.update s.hookHeld k (some j) k' = some i ↔
            ∃ r', Function.update s.stops j (.waking k r) i = .waking k' r'
          by_cases hij : i = j
          · subst hij
            rw [Function.update_self]
            by_cases hk : k' = k
            · subst hk
              rw [Function.update_self]
              exact ⟨fun _ => ⟨r, rfl⟩, fun _ => rfl⟩
            · rw [Function.update_of_ne hk]
              refine ⟨fun hold => ?_, fun ⟨r', hr'⟩ => absurd (StopStage.waking.inj hr').1.symm hk⟩
              obtain ⟨r', hr'⟩ := (h.wakers k' i).mp hold
              cases hstop.symm.trans hr'
          · rw [Function.update_of_ne hij]
            by_cases hk : k' = k
            · subst hk
              rw [Function.update_self]
              refine ⟨fun heq => absurd (Option.some.inj heq).symm hij, fun hwaking => ?_⟩
              cases hfree.symm.trans ((h.wakers k' i).mpr hwaking)
            · rw [Function.update_of_ne hk]
              exact h.wakers k' i
        · intro k' r' heq
          obtain ⟨rfl, rfl⟩ := StopStage.waking.inj heq
          exact hhook
        · by_cases hik : i = k
          · subst hik
            have hsame := hhook.symm.trans (h.arms i r' (armed_of_sleeps hi))
            exact .inr (.inl (by rw [Option.some.inj hsame]))
          · exact .inr (.inr (elsewhere (h.pending i r' hstopped hi) hik))
        · rcases hdone with hdone | ⟨_, hdone⟩ <;> cases hdone
        · refine Nat.le_of_eq ((Function.update_self _ _ _).trans ?_)
          rw [h.fresh j (.inr ⟨k, hstop⟩)]
  | waking k r =>
    rw [hstop] at hstep
    dsimp only at hstep
    cases hfree : s.held r with
    | some _ =>
      rw [hfree] at hstep
      cases hstep
    | none =>
      rw [hfree] at hstep
      obtain rfl := Option.some.inj hstep
      refine keeps_stop (keeps_notifyAll h r) (.done true) (j := j) rfl rfl rfl rfl
        (fun k' i => ?_) nofun (fun i r' hstopped hi => ?_) (fun _ _ => rfl) (fun hdone => ?_) (h.once j)
      · change Function.update s.hookHeld k none k' = some i ↔
          ∃ r', Function.update s.stops j (.done true) i = .waking k' r'
        by_cases hij : i = j
        · subst hij
          rw [Function.update_self]
          refine ⟨fun hold => ?_, fun ⟨_, hr'⟩ => by cases hr'⟩
          by_cases hk : k' = k
          · rw [hk, Function.update_self] at hold
            cases hold
          · rw [Function.update_of_ne hk] at hold
            obtain ⟨r', hr'⟩ := (h.wakers k' i).mp hold
            exact absurd (StopStage.waking.inj (hstop.symm.trans hr')).1.symm hk
        · rw [Function.update_of_ne hij]
          by_cases hk : k' = k
          · subst hk
            rw [Function.update_self]
            refine ⟨nofun, fun hwaking => ?_⟩
            have hmine := (h.wakers k' j).mpr ⟨r, hstop⟩
            exact absurd (Option.some.inj (((h.wakers k' i).mpr hwaking).symm.trans hmine)) hij
          · rw [Function.update_of_ne hk]
            exact h.wakers k' i
      · obtain ⟨m, hm⟩ := (keeps_notifyAll h r).pending i r' hstopped hi
        refine .inr (.inr ⟨m, fun hmj => ?_, hm⟩)
        subst hmj
        change s.stops m = _ ∨ s.stops m = _ at hm
        rw [hstop] at hm
        rcases hm with hm | hm
        · cases hm
        · obtain ⟨rfl, rfl⟩ := StopStage.waking.inj hm
          cases hfree.symm.trans (held_of_sleeps_notified h hi)
      · rcases hdone with hdone | ⟨_, hdone⟩ <;> cases hdone
  | idle | done =>
    rw [hstop] at hstep
    cases hstep

end Stops

section Runs

variable [DecidableEq ι] {M : (r : ι) → Monitor (σ r) (Q r) (τ r) (ρ r) (ε r)}
  {s s' : WaitState ι σ Q τ ρ} {e : WaitEvent Q ε} {resources : (r : ι) → σ r}

omit [DecidableEq ι] in
theorem keeps_stage {k : ℕ} {stage : Stage ι Q τ ρ} {status : ℕ → TaskStatus} (h : Keeps s)
    (hholds : holds stage = holds (s.workers k))
    (harmed : ∀ r, armed stage = some r → armed (s.workers k) = some r)
    (hsleeps : ∀ r, sleeps stage = some r → sleeps (s.workers k) = some r)
    (hstatus : ∀ i, (status i).stopped = true → (s.status i).stopped = true) :
    Keeps { setWorker s k stage with status := status } := by
  refine keeps_worker h stage (k := k) rfl ?_ (fun _ _ => rfl) (h.hooked · k) ?_ ?_ hstatus
    rfl rfl rfl
  · exact holders_same h rfl rfl hholds
  · exact fun r hr => h.arms k r (harmed r hr)
  · exact fun r _ hr => hsleeps r hr

omit [DecidableEq ι] in
theorem stopped_update {k : ℕ} {status : TaskStatus} (hstatus : status.stopped = true →
    (s.status k).stopped = true) (i : ℕ) (hi : (Function.update s.status k status i).stopped = true) :
    (s.status i).stopped = true := by
  by_cases hik : i = k
  · subst hik
    rw [Function.update_self] at hi
    exact hstatus hi
  · rwa [Function.update_of_ne hik] at hi

theorem keeps_next (h : Keeps s) (hstep : next M s e = some s') : Keeps s' := by
  cases e with
  | begin k =>
    rw [next] at hstep
    cases hstage : s.workers k with
    | idle =>
      rw [hstage] at hstep
      dsimp only at hstep
      by_cases hqueued : s.status k = .queued
      · rw [if_pos hqueued] at hstep
        obtain rfl := Option.some.inj hstep
        refine keeps_stage h ?_ nofun nofun (stopped_update nofun)
        rw [hstage]
        rfl
      · rw [if_neg hqueued] at hstep
        cases hstep
    | _ =>
      rw [hstage] at hstep
      cases hstep
  | finish k =>
    rw [next] at hstep
    cases hstage : s.workers k with
    | running =>
      rw [hstage] at hstep
      obtain rfl := Option.some.inj hstep
      refine keeps_stage h (by rw [hstage]; rfl) nofun nofun (stopped_update fun hstopped => ?_)
      by_cases hrunning : s.status k = .running
      · rw [if_pos hrunning] at hstopped
        cases hstopped
      · rwa [if_neg hrunning] at hstopped
    | _ =>
      rw [hstage] at hstep
      cases hstep
  | deliver k =>
    rw [next] at hstep
    by_cases hpublished : s.status k = .published
    · rw [if_pos hpublished] at hstep
      obtain rfl := Option.some.inj hstep
      have hsame : s.workers = Function.update s.workers k (s.workers k) :=
        (Function.update_eq_self k _).symm
      refine keeps_worker h _ (k := k) hsame ?_ (fun _ _ => rfl) (h.hooked · k) (h.arms k)
        (fun _ _ hr => hr) (stopped_update nofun) rfl rfl rfl
      exact h.holders
    · rw [if_neg hpublished] at hstep
      cases hstep
  | wait k r q =>
    rw [next] at hstep
    cases hstage : s.workers k with
    | running =>
      rw [hstage] at hstep
      obtain rfl := Option.some.inj hstep
      exact keeps_stage h (by rw [hstage]; rfl) nofun nofun fun _ hi => hi
    | _ =>
      rw [hstage] at hstep
      cases hstep
  | proceed k now => exact keeps_advance h hstep
  | wake k =>
    rw [next] at hstep
    cases hstage : s.workers k with
    | blocked r q =>
      rw [hstage] at hstep
      obtain rfl := Option.some.inj hstep
      refine keeps_stage h (by rw [hstage]; rfl) (fun r' hr' => ?_) nofun fun _ hi => hi
      rw [hstage]
      exact hr'
    | _ =>
      rw [hstage] at hstep
      cases hstep
  | stop j k why => exact keeps_startStop h hstep
  | proceedStop j => exact keeps_advanceStop h hstep
  | change r e =>
    rw [next] at hstep
    cases hheld : s.held r with
    | some _ =>
      rw [hheld] at hstep
      cases hstep
    | none =>
      rw [hheld] at hstep
      obtain rfl := Option.some.inj hstep
      have changed : Keeps (setResource s r ((M r).change e (s.resources r)).1) :=
        ⟨h.holders, h.wakers, h.hooked, h.arms, h.pending, h.fresh, h.once⟩
      by_cases hnotifies : ((M r).change e (s.resources r)).2 = true
      · rw [if_pos hnotifies]
        exact keeps_notifyAll changed r
      · rw [if_neg hnotifies]
        exact changed

/-- Who holds the lock of a resource waits for no other lock. -/
theorem holder_steps {r : ι} {k : ℕ} (h : Keeps s) (hheld : s.held r = some k) :
    CanStep M s (.worker k) := by
  intro now
  have hholds := (h.holders r k).mp hheld
  unfold advance
  cases hstage : s.workers k with
  | entering | checking | deciding | leaving => rfl
  | _ =>
    rw [hstage] at hholds
    cases hholds

/-- Whoever needs the lock of a resource gets it, or its holder steps. -/
theorem resource_awaited {p : Party} {r : ι} (h : Keeps s) (hfree : s.held r = none → CanStep M s p)
    (hawaits : ∀ k, s.held r = some k → Awaits s p (.worker k)) :
    CanStep M s p ∨ ∃ q, Awaits s p q ∧ CanStep M s q := by
  cases hheld : s.held r with
  | none => exact .inl (hfree hheld)
  | some k => exact .inr ⟨.worker k, hawaits k hheld, holder_steps h hheld⟩

theorem waking_moves {j k : ℕ} {r : ι} (h : Keeps s) (hstop : s.stops j = .waking k r) :
    CanStep M s (.stop j) ∨ ∃ q, Awaits s (.stop j) q ∧ CanStep M s q := by
  refine resource_awaited h (r := r) (fun hfree => ?_) fun k' hheld => ⟨k, r, hstop, hheld⟩
  unfold CanStep advanceStop
  dsimp only
  rw [hstop]
  dsimp only
  rw [hfree]
  rfl

/-- Whoever needs the lock of a hook gets it, or the stop that holds it moves. -/
theorem hook_awaited {p : Party} {k : ℕ} (h : Keeps s) (hfree : s.hookHeld k = none → CanStep M s p)
    (hawaits : ∀ j, s.hookHeld k = some j → Awaits s p (.stop j)) : Moves M s p := by
  cases hheld : s.hookHeld k with
  | none => exact .inl (hfree hheld)
  | some j =>
    obtain ⟨r, hstop⟩ := (h.wakers k j).mp hheld
    exact .inr ⟨.stop j, hawaits j hheld, waking_moves h hstop⟩

theorem moves_of_direct {p : Party} (h : CanStep M s p ∨ ∃ q, Awaits s p q ∧ CanStep M s q) :
    Moves M s p := h.imp_right fun ⟨q, hq, hstep⟩ => ⟨q, hq, .inl hstep⟩

theorem busy_moves (h : Keeps s) (p : Party) (hbusy : Busy s p) : Moves M s p := by
  cases p with
  | worker k =>
    cases hstage : s.workers k with
    | idle | running | blocked | finished =>
      unfold Busy at hbusy
      dsimp only at hbusy
      rw [hstage] at hbusy
      exact hbusy.elim
    | arming r q =>
      refine hook_awaited h (k := k) (fun hfree now => ?_) fun j hheld => ?_
      · rw [advance, hstage]
        dsimp only
        rw [setHook, hfree]
        rfl
      · unfold Awaits
        dsimp only
        rwa [hstage]
    | disarming r answer =>
      refine hook_awaited h (k := k) (fun hfree now => ?_) fun j hheld => ?_
      · rw [advance, hstage]
        dsimp only
        rw [setHook, hfree]
        rfl
      · unfold Awaits
        dsimp only
        rwa [hstage]
    | locking r q =>
      refine moves_of_direct (resource_awaited h (r := r) (fun hfree now => ?_) fun k' hheld => ?_)
      · rw [advance, hstage]
        dsimp only
        rw [lock, hfree]
        rfl
      · unfold Awaits
        dsimp only
        rwa [hstage]
    | relocking r q =>
      refine moves_of_direct (resource_awaited h (r := r) (fun hfree now => ?_) fun k' hheld => ?_)
      · rw [advance, hstage]
        dsimp only
        rw [lock, hfree]
        rfl
      · unfold Awaits
        dsimp only
        rwa [hstage]
    | entering r q | checking r q | deciding r q =>
      exact .inl (holder_steps h (r := r) ((h.holders r k).mpr (by rw [hstage]; rfl)))
    | leaving r q t =>
      exact .inl (holder_steps h (r := r) ((h.holders r k).mpr (by rw [hstage]; rfl)))
  | stop j =>
    cases hstop : s.stops j with
    | idle | done =>
      unfold Busy at hbusy
      dsimp only at hbusy
      rw [hstop] at hbusy
      exact hbusy.elim
    | hooking k =>
      refine hook_awaited h (k := k) (fun hfree => ?_) fun j' hheld => ⟨k, hstop, hheld⟩
      unfold CanStep advanceStop
      dsimp only
      rw [hstop]
      dsimp only
      rw [hfree]
      rfl
    | waking k r => exact moves_of_direct (waking_moves h hstop)

omit [DecidableEq ι] in
theorem keeps_started : Keeps (started (Q := Q) (τ := τ) (ρ := ρ) resources) where
  holders r k := ⟨nofun, nofun⟩
  wakers k j := ⟨nofun, fun ⟨_, h⟩ => by cases h⟩
  hooked := nofun
  arms := nofun
  pending := nofun
  fresh _ _ := rfl
  once _ := Nat.zero_le _

theorem no_wake_up_lost (h : Reachable (waitSystem M resources) s) : Wakeful M s := by
  have keeps : Keeps s := by
    refine reachable_invariant (S := waitSystem M resources) keeps_started ?_ h
    exact fun s e s' keeps hstep => keeps_next keeps hstep
  refine ⟨fun k r q hstopped hblocked => ?_, fun p hbusy => busy_moves keeps p hbusy, keeps.once⟩
  refine ⟨keeps.arms k r ?_, keeps.pending k r hstopped ?_⟩ <;> rw [hblocked] <;> rfl

end Runs

end StoppedWaits
