import RocGui.WatchDeliveries

/-! What every run of the watches keeps. The store finds the watches of a directory that is heard,
and the sections of the waits leave each cell whole. -/
namespace WatchRuns

open TextFormats ThreadSystems Transitions Watches WatchCalls WatchDeliveries

section Entries

/-- The tables find each live watch, or the delivery that drops its entry still has it to end. -/
structure Found (s : Shared) : Prop where
  named : ∀ id watch, s.watches id = some watch → id < s.next
  entered : ∀ id watch, Live s id watch → id ∈ s.byDescriptor watch.descriptor
  heard : ∀ id watch, Live s id watch →
    s.kernel watch.directory = some watch.descriptor ∨ s.deleted watch.directory = true
  going : ∀ event now todo, s.delivery = .going event now todo → isGone event = true →
    ∀ id watch, Live s id watch → event.descriptor = some watch.descriptor → (id, watch) ∈ todo

variable {s s' : Shared}

theorem cells_setCell (s : Shared) (id : WatchId) (cell : Cell) :
    (setCell s id cell).cells = Function.update s.cells id cell := rfl

theorem found_setCell {id : WatchId} {cell : Cell} (h : Found s) (hgrown : Grown (s.cells id) cell) :
    Found (setCell s id cell) := by
  have hlive {other : WatchId} {watch : Watch} (hlive : Live (setCell s id cell) other watch) :
      Live s other watch := by
    refine ⟨hlive.1, ?_⟩
    by_cases hid : other = id
    · subst hid
      have hended := hlive.2
      rw [cells_setCell, Function.update_self] at hended
      exact hgrown.live hended
    · have hended := hlive.2
      rwa [cells_setCell, Function.update_of_ne hid] at hended
  exact ⟨h.named, fun other watch ho => h.entered other watch (hlive ho),
    fun other watch ho => h.heard other watch (hlive ho),
    fun event now todo hgoing hgone other watch ho => h.going event now todo hgoing hgone other watch (hlive ho)⟩

theorem found_endWatch (h : Found s) (id : WatchId) (why : End) : Found (endWatch s id why) :=
  found_setCell h (grown_finish _ why)

theorem found_queue (h : Found s) (queue : List Event) : Found { s with queue := queue } :=
  ⟨h.named, h.entered, h.heard, h.going⟩

theorem found_pushEvent (h : Found s) (directory : Directory) (child : Option Text) (mask : Mask) :
    Found (pushEvent s directory child mask) := by
  unfold pushEvent
  split
  · exact found_queue h _
  · exact h

theorem cells_pushEvent (s : Shared) (directory : Directory) (child : Option Text) (mask : Mask) :
    (pushEvent s directory child mask).cells = s.cells := by
  unfold pushEvent
  split
  · rfl
  · rfl

theorem addWatch_cases (s : Shared) (directory : Directory) :
    s.kernel directory = some (addWatch s directory).1 ∧ (addWatch s directory).2 = s ∨
    s.kernel directory = none ∧ (addWatch s directory).2 = { s with
      kernel := Function.update s.kernel directory (some (addWatch s directory).1)
      nextDescriptor := s.nextDescriptor + 1 } := by
  unfold addWatch
  cases hkernel : s.kernel directory with
  | some descriptor => exact .inl ⟨rfl, rfl⟩
  | none => exact .inr ⟨rfl, rfl⟩

theorem kernel_addWatch (s : Shared) (directory : Directory) :
    (addWatch s directory).2.kernel directory = some (addWatch s directory).1 := by
  rcases addWatch_cases s directory with ⟨hkernel, hsame⟩ | ⟨-, hadded⟩
  · rw [hsame, hkernel]
  · rw [hadded]
    exact Function.update_self ..

theorem found_addWatch (h : Found s) (directory : Directory) : Found (addWatch s directory).2 := by
  rcases addWatch_cases s directory with ⟨-, hsame⟩ | ⟨hnone, hadded⟩
  · rwa [hsame]
  · rw [hadded]
    refine ⟨h.named, h.entered, fun id watch hlive => ?_, h.going⟩
    by_cases hdirectory : watch.directory = directory
    · refine .inr ((h.heard id watch hlive).resolve_left fun hkernel => ?_)
      rw [hdirectory, hnone] at hkernel
      cases hkernel
    · dsimp only
      rw [Function.update_of_ne hdirectory]
      exact h.heard id watch hlive

theorem delivery_addWatch (s : Shared) (directory : Directory) :
    (addWatch s directory).2.delivery = s.delivery := by
  rcases addWatch_cases s directory with ⟨-, hsame⟩ | ⟨-, hadded⟩
  · rw [hsame]
  · rw [hadded]

theorem cells_addWatch (s : Shared) (directory : Directory) :
    (addWatch s directory).2.cells = s.cells := by
  rcases addWatch_cases s directory with ⟨-, hsame⟩ | ⟨-, hadded⟩
  · rw [hsame]
  · rw [hadded]

theorem found_insert {directory : Directory} {target : Target} {descriptor : Descriptor} (h : Found s)
    (hkernel : s.kernel directory = some descriptor)
    (hundisturbed : ∀ event now todo, s.delivery = .going event now todo → isGone event = true →
      event.descriptor ≠ some descriptor) :
    Found { s with
      next := s.next + 1
      watches := Function.update s.watches s.next (some ⟨target, directory, descriptor⟩)
      byDescriptor :=
        Function.update s.byDescriptor descriptor (s.byDescriptor descriptor ++ [s.next]) } := by
  -- a live watch afterwards is the new one or was live before
  have split {id : WatchId} {watch : Watch}
      (hwatch : Function.update s.watches s.next (some ⟨target, directory, descriptor⟩) id = some watch) :
      id = s.next ∧ watch = ⟨target, directory, descriptor⟩ ∨ s.watches id = some watch := by
    by_cases hid : id = s.next
    · rw [hid, Function.update_self] at hwatch
      exact .inl ⟨hid, (Option.some.inj hwatch).symm⟩
    · rw [Function.update_of_ne hid] at hwatch
      exact .inr hwatch
  constructor
  · intro id watch hwatch
    rcases split hwatch with ⟨rfl, -⟩ | hold
    · exact Nat.lt_succ_self _
    · exact Nat.lt_succ_of_lt (h.named id watch hold)
  · intro id watch hlive
    change id ∈ Function.update s.byDescriptor descriptor _ watch.descriptor
    rcases split hlive.1 with ⟨rfl, rfl⟩ | hold
    · rw [Function.update_self]
      exact List.mem_append_right _ (List.mem_singleton_self _)
    · have hentered := h.entered id watch ⟨hold, hlive.2⟩
      by_cases hsame : watch.descriptor = descriptor
      · rw [hsame, Function.update_self]
        exact List.mem_append_left _ (hsame ▸ hentered)
      · rwa [Function.update_of_ne hsame]
  · intro id watch hlive
    rcases split hlive.1 with ⟨rfl, rfl⟩ | hold
    · exact .inl hkernel
    · exact h.heard id watch ⟨hold, hlive.2⟩
  · intro event now todo hgoing hgone id watch hlive hdescriptor
    rcases split hlive.1 with ⟨rfl, rfl⟩ | hold
    · exact absurd hdescriptor (hundisturbed event now todo hgoing hgone)
    · exact h.going event now todo hgoing hgone id watch ⟨hold, hlive.2⟩ hdescriptor

theorem found_start {directory : Directory} {target : Target} {id : WatchId} (h : Found s)
    (hundisturbed : ∀ event now todo, s.delivery = .going event now todo → isGone event = true →
      event.descriptor ≠ some (addWatch s directory).1)
    (hstart : start s directory target = some (id, s')) : Found s' ∧ s'.cells = s.cells := by
  unfold start at hstart
  by_cases hlimit : maxWatches ≤ (held s (List.range s.next)).length
  · rw [if_pos hlimit] at hstart
    cases hstart
  · rw [if_neg hlimit] at hstart
    obtain ⟨rfl, rfl⟩ := Prod.mk.inj (Option.some.inj hstart)
    rw [← delivery_addWatch s directory] at hundisturbed
    exact ⟨found_insert (found_addWatch h directory) (kernel_addWatch s directory) hundisturbed,
      cells_addWatch s directory⟩

theorem found_release {id : WatchId} {watch : Watch} (h : Found s) : Found (release s id watch) := by
  have survives {other : WatchId} {w : Watch} (hwatch : Function.update s.watches id none other = some w) :
      other ≠ id ∧ s.watches other = some w := by
    by_cases hid : other = id
    · rw [hid, Function.update_self] at hwatch
      cases hwatch
    · rw [Function.update_of_ne hid] at hwatch
      exact ⟨hid, hwatch⟩
  have entered {other : WatchId} {w : Watch} (hid : other ≠ id) (hlive : Live s other w) :
      other ∈ Function.update s.byDescriptor watch.descriptor
        ((s.byDescriptor watch.descriptor).filter (· ≠ id)) w.descriptor := by
    have hentered := h.entered other w hlive
    by_cases hsame : w.descriptor = watch.descriptor
    · rw [hsame, Function.update_self]
      exact List.mem_filter.mpr ⟨hsame ▸ hentered, decide_eq_true hid⟩
    · rwa [Function.update_of_ne hsame]
  unfold release
  dsimp only
  split
  · rename_i hlast
    constructor
    · intro other w hwatch
      exact h.named other w (survives hwatch).2
    · intro other w hlive
      obtain ⟨hid, hold⟩ := survives hlive.1
      exact entered hid ⟨hold, hlive.2⟩
    · intro other w hlive
      obtain ⟨hid, hold⟩ := survives hlive.1
      have hother : w.descriptor ≠ watch.descriptor := by
        intro hsame
        have hmem := entered hid ⟨hold, hlive.2⟩
        rw [hsame, Function.update_self, hlast.2] at hmem
        cases hmem
      refine (h.heard other w ⟨hold, hlive.2⟩).imp_left fun hkernel => ?_
      change (if s.kernel w.directory = some watch.descriptor then none else s.kernel w.directory) = _
      rw [if_neg fun heq => hother (Option.some.inj (hkernel.symm.trans heq)), hkernel]
    · intro event now todo hgoing hgone other w hlive
      exact h.going event now todo hgoing hgone other w ⟨(survives hlive.1).2, hlive.2⟩
  · constructor
    · intro other w hwatch
      exact h.named other w (survives hwatch).2
    · intro other w hlive
      obtain ⟨hid, hold⟩ := survives hlive.1
      exact entered hid ⟨hold, hlive.2⟩
    · intro other w hlive
      exact h.heard other w ⟨(survives hlive.1).2, hlive.2⟩
    · intro event now todo hgoing hgone other w hlive
      exact h.going event now todo hgoing hgone other w ⟨(survives hlive.1).2, hlive.2⟩

theorem cells_release (s : Shared) (id : WatchId) (watch : Watch) : (release s id watch).cells = s.cells := by
  unfold release
  dsimp only
  split
  · rfl
  · rfl

theorem mem_held {ids : List WatchId} {id : WatchId} {watch : Watch} (hid : id ∈ ids)
    (hwatch : s.watches id = some watch) : (id, watch) ∈ held s ids :=
  List.mem_filterMap.mpr ⟨id, hid, by rw [hwatch, Option.map_some]⟩

theorem reached_takeEvent (event : Event) (now : ℕ) {id : WatchId} {watch : Watch} (h : Found s)
    (hlive : Live s id watch)
    (hfor : event.descriptor = some watch.descriptor ∨ event.descriptor = none) :
    ∃ todo, (takeEvent s event now).delivery = .going event now todo ∧ (id, watch) ∈ todo := by
  refine ⟨_, rfl, ?_⟩
  rcases hfor with hdescriptor | hdescriptor <;> rw [hdescriptor]
  · exact mem_held (h.entered id watch hlive) hlive.1
  · exact mem_held (List.mem_range.mpr (h.named id watch hlive.1)) hlive.1

theorem found_takeEvent {event : Event} {now : ℕ} (h : Found s) : Found (takeEvent s event now) := by
  refine ⟨h.named, h.entered, h.heard, ?_⟩
  rintro other since todo hgoing - id watch hlive hdescriptor
  obtain ⟨snapshot, hsnapshot, hmem⟩ := reached_takeEvent event now h hlive
    (.inl (by injection hgoing with hevent; rw [hevent, hdescriptor]))
  rw [hsnapshot] at hgoing
  injection hgoing with _ _ hlist
  exact hlist ▸ hmem

theorem found_arrive {event : Event} {now : ℕ} {id : WatchId} {watch : Watch}
    {todo : List (WatchId × Watch)} (h : Found s)
    (hgoing : s.delivery = .going event now ((id, watch) :: todo)) :
    Found { arrive s event now id watch with delivery := .going event now todo } := by
  have hgrown (cell : Cell) (hcell : Grown (s.cells id) cell)
      (hended : isGone event = true → ∃ why, cell.state.ended = some why) :
      Found { setCell s id cell with delivery := .going event now todo } := by
    have hset := found_setCell h hcell
    refine ⟨hset.named, hset.entered, hset.heard, ?_⟩
    intro other since rest hother hgone i w hlive hdescriptor
    injection hother with hevent hnow hlist
    subst hevent hnow hlist
    rcases List.mem_cons.mp (hset.going event now _ hgoing hgone i w hlive hdescriptor) with hhead | htail
    · obtain ⟨rfl, rfl⟩ := Prod.mk.inj hhead
      obtain ⟨why, hwhy⟩ := hended hgone
      have hnone := hlive.2
      dsimp only at hnone
      rw [cells_setCell, Function.update_self, hwhy] at hnone
      cases hnone
    · exact htail
  unfold arrive
  by_cases hgone : isGone event = true
  · rw [if_pos hgone]
    refine hgrown _ (grown_finish _ _) fun _ => ?_
    change ∃ why, (finish (s.cells id).state .gone).2.ended = some why
    unfold finish
    cases hended : (s.cells id).state.ended with
    | some why => exact ⟨why, hended⟩
    | none => exact ⟨.gone, rfl⟩
  · rw [if_neg hgone]
    exact hgrown _ (grown_record ..) fun h => absurd h hgone

/-- No live watch has the descriptor whose entry is dropped. -/
theorem found_finishDelivery {event : Event} {now : ℕ} (h : Found s)
    (hgoing : s.delivery = .going event now []) : Found (finishDelivery s event) := by
  have hresting : Found { s with delivery := .resting } := ⟨h.named, h.entered, h.heard, nofun⟩
  unfold finishDelivery
  cases hdescriptor : event.descriptor with
  | none => exact hresting
  | some descriptor =>
    dsimp only
    by_cases hmask : event.mask.directoryGone = true
    · rw [if_pos hmask]
      have hgone : isGone event = true := by rw [isGone, hdescriptor, hmask]; rfl
      refine ⟨h.named, fun id watch hlive => ?_, h.heard, nofun⟩
      have hother : watch.descriptor ≠ descriptor := by
        intro hsame
        have hmem := h.going event now [] hgoing hgone id watch hlive (hsame ▸ hdescriptor)
        cases hmem
      change id ∈ Function.update s.byDescriptor descriptor [] watch.descriptor
      rw [Function.update_of_ne hother]
      exact h.entered id watch hlive
    · rw [if_neg hmask]
      exact hresting

theorem cells_finishDelivery (s : Shared) (event : Event) : (finishDelivery s event).cells = s.cells := by
  unfold finishDelivery
  split
  · split
    · rfl
    · rfl
  · rfl

theorem found_delete (h : Found s) (directory : Directory) : Found { s with
    kernel := Function.update s.kernel directory none
    deleted := Function.update s.deleted directory true } := by
  refine ⟨h.named, h.entered, fun id watch hlive => ?_, h.going⟩
  dsimp only
  by_cases hdirectory : watch.directory = directory
  · rw [hdirectory, Function.update_self, Function.update_self]
    exact .inr rfl
  · rw [Function.update_of_ne hdirectory, Function.update_of_ne hdirectory]
    exact h.heard id watch hlive

end Entries

section Calls

/-- How a watch had ended when the wait began still is how it ended. -/
def Said (s : Shared) : Call → Prop
  | .checking id before | .entering id before =>
    ∀ why, before = some why → (s.cells id).state.ended = some why
  | .blocked _ before => before = none
  | call => Answers s call

variable {s s' : Shared} {call next : Call} {action : Action}

def Quiet (s s' : Shared) : Prop := ∀ id, (CellKept (s.cells id) → CellKept (s'.cells id)) ∧
  Grown (s.cells id) (s'.cells id) ∧ (s'.cells id).state.waiting = (s.cells id).state.waiting

theorem quiet_cells (h : s'.cells = s.cells) : Quiet s s' := by
  intro id
  rw [h]
  exact ⟨fun h => h, grown_refl _, rfl⟩

theorem quiet_setCell {id : WatchId} {cell : Cell} (hkept : CellKept (s.cells id) → CellKept cell)
    (hgrown : Grown (s.cells id) cell) (hwaiting : cell.state.waiting = (s.cells id).state.waiting) :
    Quiet s (setCell s id cell) := by
  intro other
  rw [cells_setCell]
  by_cases hid : other = id
  · subst hid
    rw [Function.update_self]
    exact ⟨hkept, hgrown, hwaiting⟩
  · rw [Function.update_of_ne hid]
    exact ⟨fun h => h, grown_refl _, rfl⟩

theorem quiet_endWatch (s : Shared) (id : WatchId) (why : End) : Quiet s (endWatch s id why) :=
  quiet_setCell (fun h => kept_finish h why) (grown_finish _ why) (waiting_finish _ why)

theorem quiet_arrive (s : Shared) (event : Event) (now : ℕ) (id : WatchId) (watch : Watch) :
    Quiet s (arrive s event now id watch) := by
  unfold arrive
  by_cases hgone : isGone event = true
  · rw [if_pos hgone]
    exact quiet_endWatch s id .gone
  · rw [if_neg hgone]
    exact quiet_setCell (fun h => kept_record h _ _ _) (grown_record ..) (waiting_record ..)

theorem said_grown (h : Said s call) (hgrown : ∀ id, Grown (s.cells id) (s'.cells id)) :
    Said s' call := by
  cases call with
  | checking id before | entering id before => exact fun why hwhy => (hgrown id).ended why (h why hwhy)
  | blocked => exact h
  | answered id before report took =>
    exact ⟨h.1, fun hchanged => (hgrown id).reports _ (h.2.1 hchanged), h.2.2⟩
  | idle | registering | ending | sweeping => trivial

structure Turns (s : Shared) (call : Call) (id : WatchId) (before : Option End)
    (result : Option (Report × List Arrival)) (cell : Cell) : Prop where
  turned : Turned (s.cells id) result cell
  before : ∀ why, before = some why → (s.cells id).state.ended = some why
  marked : result = none → cell.state.waiting = true
  alone : inside call ≠ some id →
    (result = none → (s.cells id).state.waiting = false) ∧
      (result ≠ none → cell.state.waiting = (s.cells id).state.waiting)

theorem said_waited {id : WatchId} {before : Option End} {result : Option (Report × List Arrival)}
    {cell : Cell} (h : Turns s call id before result cell) :
    Said (setCell s id cell) (waited id before result) := by
  cases hresult : result with
  | none =>
    change before = none
    cases hbefore : before with
    | none => rfl
    | some why =>
      have hended := h.before why hbefore
      rw [h.turned.blocks hresult] at hended
      cases hended
  | some entry =>
    obtain ⟨report, took⟩ := entry
    refine ⟨fun why hwhy => h.turned.ends _ why hresult (h.before why hwhy), fun hchanged => ?_,
      fun hne => (h.turned.leaves _ hresult hne).1⟩
    rw [cells_setCell, Function.update_self]
    exact (h.turned.listed _ hresult hchanged).1

theorem turns_blocked {id : WatchId} (requested : Bool) (now : ℕ) (hkept : CellKept (s.cells id))
    (hwaiting : (s.cells id).state.waiting = true) :
    Turns s (.blocked id none) id none ((s.cells id).turn requested now).1
      ((s.cells id).turn requested now).2 := by
  obtain ⟨hturned, hblocked, -⟩ := turn_cases hkept requested now
  refine ⟨hturned, nofun, fun hresult => ?_, fun hne => absurd rfl hne⟩
  rw [hblocked hresult, hwaiting]

theorem turns_entering {id : WatchId} {before : Option End} (requested : Bool) (now : ℕ)
    (hkept : CellKept (s.cells id))
    (hbefore : ∀ why, before = some why → (s.cells id).state.ended = some why) :
    Turns s (.entering id before) id before ((s.cells id).enter requested now).1
      ((s.cells id).enter requested now).2 := by
  obtain ⟨hturned, hblocked, hleft⟩ := enter_cases hkept requested now
  exact ⟨hturned, hbefore, fun hresult => (hblocked hresult).2,
    fun _ => ⟨fun hresult => (hblocked hresult).1, hleft⟩⟩

/-- No descriptor that a delivery is about to drop is the one of the directory. -/
def Clear (s : Shared) (directory : Directory) : Prop :=
  ∀ event now todo, s.delivery = .going event now todo → isGone event = true →
    event.descriptor ≠ some (addWatch s directory).1

theorem advance_cases (found : Found s) (kept : ∀ id, CellKept (s.cells id)) (said : Said s call)
    (hwaiting : ∀ id, inside call = some id → (s.cells id).state.waiting = true)
    (hclear : ∀ directory target revoked, action = .start directory target revoked → Clear s directory)
    (h : advance s call action = some (next, s')) :
    Found s' ∧
      ((Quiet s s' ∧ inside next = none ∧ Said s' next ∧
        ∀ id before report took, next ≠ .answered id before report took) ∨
      ∃ id before result cell, s' = setCell s id cell ∧ next = waited id before result ∧
        Turns s call id before result cell) := by
  have quiet {result : Call × Shared} (hstep : some result = some (next, s')) (hfound : Found result.2)
      (hquiet : Quiet s result.2) (hinside : inside result.1 = none) (hsaid : Said result.2 result.1)
      (hno : ∀ id before report took, result.1 ≠ .answered id before report took) :
      Found s' ∧ ((Quiet s s' ∧ inside next = none ∧ Said s' next ∧
        ∀ id before report took, next ≠ .answered id before report took) ∨
        ∃ id before result cell, s' = setCell s id cell ∧ next = waited id before result ∧
          Turns s call id before result cell) := by
    obtain rfl := Option.some.inj hstep
    exact ⟨hfound, .inl ⟨hquiet, hinside, hsaid, hno⟩⟩
  have same : Quiet s s := quiet_cells rfl
  cases call with
  | idle =>
    cases action with
    | start directory target revoked =>
      rw [advance] at h
      by_cases hrevoked : revoked = true
      · rw [if_pos hrevoked] at h
        exact quiet h found same rfl trivial nofun
      · rw [if_neg hrevoked] at h
        cases hstart : start s directory target with
        | none =>
          rw [hstart] at h
          exact quiet h found same rfl trivial nofun
        | some started =>
          obtain ⟨id, s₁⟩ := started
          obtain ⟨hfound, hcells⟩ := found_start found (hclear directory target revoked rfl) hstart
          rw [hstart] at h
          exact quiet h hfound (quiet_cells hcells) rfl trivial nofun
    | next id =>
      obtain ⟨watch, -, hmoved⟩ := Option.map_eq_some_iff.mp h
      exact quiet (congrArg some hmoved) found same rfl (fun _ hwhy => hwhy) nofun
    | cancel id =>
      obtain ⟨watch, -, hmoved⟩ := Option.map_eq_some_iff.mp h
      exact quiet (congrArg some hmoved) found same rfl trivial nofun
    | release id =>
      obtain ⟨watch, -, hmoved⟩ := Option.map_eq_some_iff.mp h
      exact quiet (congrArg some hmoved) (found_release found) (quiet_cells (cells_release ..)) rfl
        trivial nofun
    | sweep => exact quiet h found same rfl trivial nofun
    | register | withdraw | turn | proceed => cases h
  | registering id =>
    cases action with
    | register recorded =>
      cases recorded with
      | true => exact quiet h found same rfl trivial nofun
      | false => exact quiet h (found_endWatch found _ _) (quiet_endWatch s id .revoked) rfl trivial nofun
    | start | next | cancel | release | sweep | withdraw | turn | proceed => cases h
  | ending id why =>
    cases action with
    | proceed => exact quiet h (found_endWatch found _ _) (quiet_endWatch s id why) rfl trivial nofun
    | start | register | next | cancel | release | sweep | withdraw | turn => cases h
  | checking id before =>
    cases action with
    | withdraw reason =>
      cases reason with
      | none => exact quiet h found same rfl said nofun
      | some why =>
        have hquiet := quiet_endWatch s id why
        exact quiet h (found_endWatch found _ _) hquiet rfl
          (fun first hfirst => (hquiet id).2.1.ended first (said first hfirst)) nofun
    | start | register | next | cancel | release | sweep | turn | proceed => cases h
  | entering id before =>
    cases action with
    | turn requested now =>
      obtain ⟨rfl, rfl⟩ := Prod.mk.inj (Option.some.inj h)
      have hturns := turns_entering requested now (kept id) said
      exact ⟨found_setCell found hturns.turned.grown, .inr ⟨id, before, _, _, rfl, rfl, hturns⟩⟩
    | start | register | next | cancel | release | sweep | withdraw | proceed => cases h
  | blocked id before =>
    cases action with
    | turn requested now =>
      obtain ⟨rfl, rfl⟩ := Prod.mk.inj (Option.some.inj h)
      obtain rfl : before = none := said
      have hturns := turns_blocked requested now (kept id) (hwaiting id rfl)
      exact ⟨found_setCell found hturns.turned.grown, .inr ⟨id, none, _, _, rfl, rfl, hturns⟩⟩
    | start | register | next | cancel | release | sweep | withdraw | proceed => cases h
  | answered =>
    cases action with
    | proceed => exact quiet h found same rfl trivial nofun
    | start | register | next | cancel | release | sweep | withdraw | turn => cases h
  | sweeping todo =>
    cases todo with
    | nil =>
      cases action with
      | proceed => exact quiet h found same rfl trivial nofun
      | start | register | next | cancel | release | sweep | withdraw | turn => cases h
    | cons id todo =>
      cases action with
      | withdraw reason =>
        cases reason with
        | none => exact quiet h found same rfl trivial nofun
        | some why => exact quiet h (found_endWatch found _ _) (quiet_endWatch s id why) rfl trivial nofun
      | start | register | next | cancel | release | sweep | turn | proceed => cases h

end Calls

section Runs

structure Keeps (s : WatchState) : Prop where
  found : Found s.shared
  cells : ∀ id, CellKept (s.shared.cells id)
  said : ∀ t, Said s.shared (s.calls t)
  /-- A wait that is inside has its flag set, and is alone. -/
  waiting : ∀ t id, inside (s.calls t) = some id → (s.shared.cells id).state.waiting = true
  single : ∀ t t' id, inside (s.calls t) = some id → inside (s.calls t') = some id → t = t'

variable {s s' : WatchState} {e : WatchEvent}

theorem keeps_quiet (keeps : Keeps s) (hfound : Found s'.shared) (hquiet : Quiet s.shared s'.shared)
    (hcalls : ∀ t, s'.calls t = s.calls t ∨
      inside (s'.calls t) = none ∧ Said s'.shared (s'.calls t)) : Keeps s' := by
  have hgrown (id : WatchId) := (hquiet id).2.1
  have old {t : ℕ} {id : WatchId} (hinside : inside (s'.calls t) = some id) :
      inside (s.calls t) = some id := by
    rcases hcalls t with hsame | ⟨hnone, -⟩
    · exact hsame ▸ hinside
    · rw [hnone] at hinside
      cases hinside
  refine ⟨hfound, fun id => (hquiet id).1 (keeps.cells id), fun t => ?_, fun t id hinside => ?_,
    fun t t' id ht ht' => keeps.single t t' id (old ht) (old ht')⟩
  · rcases hcalls t with hsame | ⟨-, hsaid⟩
    · rw [hsame]
      exact said_grown (keeps.said t) hgrown
    · exact hsaid
  · rw [(hquiet id).2.2]
    exact keeps.waiting t id (old hinside)

theorem inside_waited (id : WatchId) (before : Option End) (result : Option (Report × List Arrival)) :
    inside (waited id before result) = none ∧ result ≠ none ∨
      inside (waited id before result) = some id ∧ result = none := by
  cases result with
  | none => exact .inr ⟨rfl, rfl⟩
  | some entry => exact .inl ⟨rfl, nofun⟩

/-- Only a wait that finds no other one inside gets in. -/
theorem keeps_turn {t : ℕ} {id : WatchId} {before : Option End}
    {result : Option (Report × List Arrival)} {cell : Cell} (keeps : Keeps s)
    (hturns : Turns s.shared (s.calls t) id before result cell)
    (hshared : s'.shared = setCell s.shared id cell)
    (hcalls : s'.calls = Function.update s.calls t (waited id before result)) : Keeps s' := by
  have hgrown (other : WatchId) : Grown (s.shared.cells other) (s'.shared.cells other) := by
    rw [hshared, cells_setCell]
    by_cases hid : other = id
    · subst hid
      rw [Function.update_self]
      exact hturns.turned.grown
    · rw [Function.update_of_ne hid]
      exact grown_refl _
  have here : s'.calls t = waited id before result := by rw [hcalls, Function.update_self]
  have rest {t' : ℕ} (ht : t' ≠ t) : s'.calls t' = s.calls t' := by
    rw [hcalls, Function.update_of_ne ht]
  -- the others that are inside the same watch leave no room for this one
  have alone {t' : ℕ} (ht : t' ≠ t) (hinside : inside (s.calls t') = some id) :
      result ≠ none ∧ cell.state.waiting = true := by
    have hwaiting := keeps.waiting t' id hinside
    have hout : inside (s.calls t) ≠ some id := fun h => ht (keeps.single t' t id hinside h)
    have hsome : result ≠ none := by
      intro hnone
      rw [(hturns.alone hout).1 hnone] at hwaiting
      cases hwaiting
    exact ⟨hsome, ((hturns.alone hout).2 hsome).trans hwaiting⟩
  constructor
  · rw [hshared]
    exact found_setCell keeps.found hturns.turned.grown
  · intro other
    rw [hshared, cells_setCell]
    by_cases hid : other = id
    · rw [hid, Function.update_self]
      exact hturns.turned.kept
    · rw [Function.update_of_ne hid]
      exact keeps.cells other
  · intro t'
    by_cases ht : t' = t
    · rw [ht, here, hshared]
      exact said_waited hturns
    · rw [rest ht]
      exact said_grown (keeps.said t') hgrown
  · intro t' other hinside
    rw [hshared, cells_setCell]
    by_cases ht : t' = t
    · rw [ht, here] at hinside
      rcases inside_waited id before result with ⟨hnone, -⟩ | ⟨hsome, hresult⟩
      · rw [hnone] at hinside
        cases hinside
      · obtain rfl := Option.some.inj (hsome.symm.trans hinside)
        rw [Function.update_self]
        exact hturns.marked hresult
    · rw [rest ht] at hinside
      by_cases hid : other = id
      · subst hid
        rw [Function.update_self]
        exact (alone ht hinside).2
      · rw [Function.update_of_ne hid]
        exact keeps.waiting t' other hinside
  · have lone {t' : ℕ} {other : WatchId} (ht : t' ≠ t) (hinside : inside (s'.calls t') = some other)
        (hmine : inside (s'.calls t) = some other) : False := by
      rw [here] at hmine
      rw [rest ht] at hinside
      rcases inside_waited id before result with ⟨hnone, -⟩ | ⟨hsome, hresult⟩
      · rw [hnone] at hmine
        cases hmine
      · obtain rfl := Option.some.inj (hsome.symm.trans hmine)
        exact (alone ht hinside).1 hresult
    intro t₁ t₂ other h₁ h₂
    by_cases ht₁ : t₁ = t
    · subst ht₁
      by_contra hne
      exact lone (Ne.symm hne) h₂ h₁
    · by_cases ht₂ : t₂ = t
      · subst ht₂
        exact (lone ht₁ h₁ h₂).elim
      · rw [rest ht₁] at h₁
        rw [rest ht₂] at h₂
        exact keeps.single t₁ t₂ other h₁ h₂

theorem next_cases (keeps : Keeps s) (undisturbed : Undisturbed s e) (h : next s e = some s') :
    (Found s'.shared ∧ Quiet s.shared s'.shared ∧
      (∀ t, s'.calls t = s.calls t ∨ inside (s'.calls t) = none ∧ Said s'.shared (s'.calls t)) ∧
      ∀ t action id before report took, e = .task t action →
        s'.calls t ≠ .answered id before report took) ∨
    ∃ t action id before result cell, e = .task t action ∧ s'.shared = setCell s.shared id cell ∧
      s'.calls = Function.update s.calls t (waited id before result) ∧
      Turns s.shared (s.calls t) id before result cell := by
  have still {shared : Shared} (hstep : some { s with shared := shared } = some s')
      (hfound : Found shared) (hquiet : Quiet s.shared shared)
      (hevent : ∀ t action, e ≠ .task t action) :
      (Found s'.shared ∧ Quiet s.shared s'.shared ∧
        (∀ t, s'.calls t = s.calls t ∨ inside (s'.calls t) = none ∧ Said s'.shared (s'.calls t)) ∧
        ∀ t action id before report took, e = .task t action →
          s'.calls t ≠ .answered id before report took) ∨
      ∃ t action id before result cell, e = .task t action ∧ s'.shared = setCell s.shared id cell ∧
        s'.calls = Function.update s.calls t (waited id before result) ∧
        Turns s.shared (s.calls t) id before result cell := by
    obtain rfl := Option.some.inj hstep
    exact .inl ⟨hfound, hquiet, fun _ => .inl rfl, fun t action _ _ _ _ he => absurd he (hevent t action)⟩
  cases e with
  | task t action =>
    obtain ⟨call, hadvance, hcalls⟩ := step_cases h
    have hclear (directory : Directory) (target : Target) (revoked : Bool)
        (haction : action = .start directory target revoked) : Clear s.shared directory := by
      subst haction
      exact undisturbed
    obtain ⟨hfound, ⟨hquiet, hinside, hsaid, hno⟩ | ⟨id, before, result, cell, hshared, hnext, hturns⟩⟩ :=
      advance_cases keeps.found keeps.cells (keeps.said t) (keeps.waiting t) hclear hadvance
    · have here : s'.calls t = call := by rw [hcalls, Function.update_self]
      refine .inl ⟨hfound, hquiet, fun t' => ?_, ?_⟩
      · by_cases ht : t' = t
        · rw [ht, here]
          exact .inr ⟨hinside, hsaid⟩
        · rw [hcalls, Function.update_of_ne ht]
          exact .inl rfl
      · intro t' action' id before report took he
        injection he with ht
        rw [← ht, here]
        exact hno id before report took
    · exact .inr ⟨t, action, id, before, result, cell, rfl, hshared, hnext ▸ hcalls, hturns⟩
  | read now =>
    rw [WatchCalls.next] at h
    split at h
    · exact still h (found_takeEvent (found_queue keeps.found _)) (quiet_cells rfl) nofun
    · cases h
  | arrive =>
    rw [WatchCalls.next] at h
    split at h
    · cases h
    · rename_i event now hgoing
      exact still h (found_finishDelivery keeps.found hgoing) (quiet_cells (cells_finishDelivery ..)) nofun
    · rename_i event now id watch todo hgoing
      exact still h (found_arrive keeps.found hgoing) (quiet_arrive s.shared event now id watch) nofun
  | happen directory child mask =>
    exact still h (found_pushEvent keeps.found _ _ _) (quiet_cells (cells_pushEvent ..)) nofun
  | move directory =>
    exact still h (found_pushEvent keeps.found _ _ _) (quiet_cells (cells_pushEvent ..)) nofun
  | delete directory =>
    have hfound := found_delete (found_pushEvent keeps.found directory none goneMask) directory
    exact still h hfound (quiet_cells (cells_pushEvent s.shared directory none goneMask)) nofun
  | overflow => exact still h (found_queue keeps.found _) (quiet_cells rfl) nofun

theorem keeps_next (keeps : Keeps s) (undisturbed : Undisturbed s e) (h : next s e = some s') :
    Keeps s' := by
  rcases next_cases keeps undisturbed h with ⟨hfound, hquiet, hcalls, -⟩ |
    ⟨t, action, id, before, result, cell, -, hshared, hcalls, hturns⟩
  · exact keeps_quiet keeps hfound hquiet hcalls
  · exact keeps_turn keeps hturns hshared hcalls

theorem keeps_started : Keeps started where
  found := ⟨nofun, nofun, nofun, nofun⟩
  cells _ := kept_fresh
  said _ := trivial
  waiting := nofun
  single := nofun

theorem watchKept_of_keeps (keeps : Keeps s) : WatchKept s where
  cells := keeps.cells
  watched id watch hlive := ⟨keeps.found.entered id watch hlive, keeps.found.heard id watch hlive⟩
  single := keeps.single
  answers t := by
    have hsaid := keeps.said t
    cases hcall : s.calls t with
    | answered id before report took =>
      rw [hcall] at hsaid
      exact hsaid
    | _ => trivial

theorem grown_next (keeps : Keeps s) (undisturbed : Undisturbed s e) (h : next s e = some s')
    (id : WatchId) : Grown (s.shared.cells id) (s'.shared.cells id) := by
  rcases next_cases keeps undisturbed h with ⟨-, hquiet, -⟩ |
    ⟨t, action, other, before, result, cell, -, hshared, -, hturns⟩
  · exact (hquiet id).2.1
  · rw [hshared, cells_setCell]
    by_cases hid : id = other
    · subst hid
      rw [Function.update_self]
      exact hturns.turned.grown
    · rw [Function.update_of_ne hid]
      exact grown_refl _

theorem turned_next {t : ℕ} {action : Action} {id : WatchId} {before : Option End} {report : Report}
    {took : List Arrival} (keeps : Keeps s) (undisturbed : Undisturbed s (.task t action))
    (h : next s (.task t action) = some s') (hanswer : s'.calls t = .answered id before report took) :
    Turned (s.shared.cells id) (some (report, took)) (s'.shared.cells id) := by
  rcases next_cases keeps undisturbed h with ⟨-, -, -, hno⟩ |
    ⟨t', action', other, before', result, cell, he, hshared, hcalls, hturns⟩
  · exact absurd hanswer (hno t action id before report took rfl)
  · injection he with ht
    subst ht
    rw [hcalls, Function.update_self] at hanswer
    cases hresult : result with
    | none =>
      rw [hresult] at hanswer
      cases hanswer
    | some entry =>
      rw [hresult] at hanswer
      injection hanswer with hid _ hreport htook
      subst hid hreport htook
      rw [hshared, cells_setCell, Function.update_self]
      exact hresult ▸ hturns.turned

theorem ended_arrive {event : Event} {now : ℕ} {id : WatchId} {watch : Watch} {shared : Shared}
    (hlive : Live shared id watch) :
    if isGone event then ((arrive shared event now id watch).cells id).state.ended = some .gone
    else ((arrive shared event now id watch).cells id).history =
      (shared.cells id).history ++ arrival watch.target (effectOn event watch) := by
  unfold arrive
  by_cases hgone : isGone event = true
  · rw [if_pos hgone, if_pos hgone, endWatch, cells_setCell, Function.update_self]
    change (finish (shared.cells id).state .gone).2.ended = some .gone
    rw [finish, hlive.2]
  · rw [if_neg hgone, if_neg hgone, cells_setCell, Function.update_self]
    rcases record_cases (shared.cells id) watch.target (effectOn event watch) now with
      ⟨⟨why, hwhy⟩, -⟩ | ⟨-, -, -, -, hhistory⟩
    · rw [hlive.2] at hwhy
      cases hwhy
    · exact hhistory

theorem stepKept_next (keeps : Keeps s) (undisturbed : Undisturbed s e) (h : next s e = some s') :
    StepKept s e s' := by
  constructor
  · rintro now event todo rfl hgoing id watch hlive hfor
    rw [WatchCalls.next] at h
    split at h
    · rename_i event' queue hresting hqueue
      obtain rfl := Option.some.inj h
      have hevent : event' = event := by injection hgoing
      subst hevent
      obtain ⟨snapshot, hsnapshot, hmem⟩ :=
        reached_takeEvent _ now (found_queue keeps.found queue) hlive hfor
      rw [hsnapshot] at hgoing
      injection hgoing with _ _ hlist
      exact hlist ▸ hmem
    · cases h
  · rintro now event todo id watch rfl hgoing hlive
    rw [WatchCalls.next, hgoing] at h
    obtain rfl := Option.some.inj h
    exact ended_arrive hlive
  · intro id why hwhy
    exact (grown_next keeps undisturbed h id).ended why hwhy
  · rintro t requested now id before report took rfl hanswer hne
    have hturned := turned_next keeps undisturbed h hanswer
    exact (hturned.leaves _ rfl hne).2
  · rintro t requested now id before report took rfl hanswer hchanged
    have hturned := turned_next keeps undisturbed h hanswer
    exact (hturned.listed _ rfl hchanged).2
  · rintro t now id before rfl hcall hnone hgathered hsettled
    have hpending := (keeps.cells id).pending.mpr hgathered
    obtain ⟨call, hadvance, hcalls⟩ := step_cases h
    refine ⟨gathered (s.shared.cells id).state, (s.shared.cells id).gathered, ?_, rfl⟩
    rw [hcalls, Function.update_self]
    rcases hcall with hcall | ⟨hcall, hfree⟩ <;> rw [hcall] at hadvance
    · have hwaited : waited id before ((s.shared.cells id).turn false now).1 = call :=
        (Prod.mk.inj (Option.some.inj hadvance)).1
      rw [← hwaited, turn_reports hnone hpending hsettled, waited]
    · have hwaited : waited id before ((s.shared.cells id).enter false now).1 = call :=
        (Prod.mk.inj (Option.some.inj hadvance)).1
      rw [← hwaited, enter_reports hnone hfree hpending hsettled, waited]

theorem keeps_of_reachable (h : Reachable (watchSystem.restrict Undisturbed) s) : Keeps s := by
  apply reachable_invariant (S := watchSystem.restrict Undisturbed) keeps_started _ h
  intro s e s' keeps hstep
  exact keeps_next keeps hstep.1 hstep.2

/-- A run in which no watch starts on a directory whose entry is about to be dropped. -/
theorem watches_lose_nothing (h : Reachable (watchSystem.restrict Undisturbed) s) :
    WatchKept s ∧ ∀ e s', Undisturbed s e → watchSystem.Step s e s' → StepKept s e s' :=
  ⟨watchKept_of_keeps (keeps_of_reachable h), fun _ _ undisturbed hstep =>
    stepKept_next (keeps_of_reachable h) undisturbed hstep⟩

def undisturbed (s : WatchState) (e : WatchEvent) : Option WatchState :=
  match e, s.shared.delivery with
  | .task _ (.start directory _ _), .going event _ _ =>
    if isGone event && event.descriptor = some (addWatch s.shared directory).1 then none else next s e
  | _, _ => next s e

theorem undisturbed_step (h : undisturbed s e = some s') :
    (watchSystem.restrict Undisturbed).Step s e s' := by
  cases e with
  | task t action =>
    cases action with
    | start directory target revoked =>
      unfold undisturbed at h
      cases hdelivery : s.shared.delivery with
      | resting =>
        rw [hdelivery] at h
        refine ⟨?_, h⟩
        intro event now todo hgoing
        cases hdelivery.symm.trans hgoing
      | going event now todo =>
        rw [hdelivery] at h
        dsimp only at h
        split at h
        · cases h
        · rename_i hclear
          refine ⟨?_, h⟩
          intro other since rest hgoing hgone heq
          injection hdelivery.symm.trans hgoing with hevent
          subst hevent
          rw [hgone, heq, Bool.true_and, decide_eq_true rfl] at hclear
          exact hclear rfl
    | _ => exact ⟨trivial, h⟩
  | _ => exact ⟨trivial, h⟩

def oneChange : List WatchEvent :=
  [.task 0 (.start 0 .directory false), .task 0 (.register true), .task 0 (.next 1),
    .task 0 (.withdraw none), .task 0 (.turn false 0), .happen 0 ['x'] ⟨false, true, false⟩,
    .read 5, .arrive, .arrive, .task 0 (.turn false (5 + settle))]

def reported : WatchState := (oneChange.foldlM undisturbed started).getD started

theorem one_change_reported : WatchKept reported ∧
    (reported.shared.cells 1).reports.map (·.1) = [⟨changed, {['x']}, false, false⟩] := by
  have hrun : oneChange.foldlM undisturbed started = some reported := by rfl
  have hreachable : Reachable (watchSystem.restrict Undisturbed) reported :=
    reachable_trace (fun _ _ _ h => undisturbed_step h) (reachable_initial _) hrun
  exact ⟨(watches_lose_nothing hreachable).1, by decide +kernel⟩

/-- The directory of a watch is moved. Another watch of it starts after the first has ended and
before the entry is dropped; then a child is written. -/
def droppedEntry : List WatchEvent :=
  [.task 0 (.start 0 .directory false), .task 0 (.register true), .move 0, .read 1, .arrive,
    .task 1 (.start 0 .directory false), .task 1 (.register true), .arrive,
    .happen 0 ['x'] ⟨false, true, false⟩]

def unheard : WatchState := (droppedEntry.foldlM next started).getD started

theorem moved_directory_loses_a_change : ¬∀ s, Reachable watchSystem s →
    WatchKept s ∧ ∀ e s', watchSystem.Step s e s' → StepKept s e s' := by
  intro claim
  have hrun : droppedEntry.foldlM next started = some unheard := by rfl
  have hreachable : Reachable watchSystem unheard :=
    reachable_trace (fun _ _ _ h => h) (reachable_initial _) hrun
  have hlive : Live unheard.shared 2 ⟨.directory, 0, 1⟩ := ⟨by rfl, by rfl⟩
  -- the delivery of the write goes to no watch at all
  have hstep : ∃ s', next unheard (.read 2) = some s' ∧
      s'.shared.delivery = .going ⟨some 1, some ['x'], ⟨false, true, false⟩⟩ 2 [] := ⟨_, rfl, rfl⟩
  obtain ⟨s', hread, hgoing⟩ := hstep
  have hmem := ((claim unheard hreachable).2 _ _ hread).reached 2 _ [] rfl hgoing 2 _ hlive (.inl rfl)
  cases hmem

end Runs

end WatchRuns
