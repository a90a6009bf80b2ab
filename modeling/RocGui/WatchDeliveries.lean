import RocGui.WatchCalls

/-! What a watch keeps between its deliveries and its waits. A directory that is gone loses its
entry after its watches have ended: a watch that starts on it in between is left without. -/
namespace WatchDeliveries

open TextFormats ThreadSystems Transitions Watches WatchCalls

section Statements

/-- What a report, or the state before it, says of an arrival. -/
def Covered (names : Finset Text) (overflowed rebound : Bool) : Arrival → Prop
  | .named name moved => (name ∈ names ∨ overflowed = true) ∧ (moved = true → rebound = true)
  | .lost database => overflowed = true ∧ (database = true → rebound = true)

/-- A change is pending exactly when the instants of the first and the last are set. -/
def Timed (s : State) : Prop :=
  (s.pending = true ↔ s.first.isSome ∧ s.last.isSome) ∧
    (s.pending = false → s.first = none ∧ s.last = none)

/-- Each arrival is gathered, or in exactly one report. -/
structure CellKept (cell : Cell) : Prop where
  bounded : cell.state.names.card ≤ maxNames
  timed : Timed cell.state
  pending : cell.state.pending = true ↔ cell.gathered ≠ []
  whole : cell.history = (cell.reports.map (·.2)).flatten ++ cell.gathered
  held : ∀ a ∈ cell.gathered, Covered cell.state.names cell.state.overflowed cell.state.rebound a
  reported : ∀ entry ∈ cell.reports, entry.1.code = changed ∧
    ∀ a ∈ entry.2, Covered entry.1.names entry.1.overflowed entry.1.replaced a

def Live (s : Shared) (id : WatchId) (watch : Watch) : Prop :=
  s.watches id = some watch ∧ (s.cells id).state.ended = none

/-- A wait that began after the end answers its code, and only a report of changes takes any. -/
def Answers (s : Shared) : Call → Prop
  | .answered id before report took => (∀ why, before = some why → report = .ended (code why)) ∧
      (report.code = changed → (report, took) ∈ (s.cells id).reports) ∧
        (report.code ≠ changed → took = [])
  | _ => True

def inside : Call → Option WatchId
  | .blocked id _ => some id
  | _ => none

structure WatchKept (s : WatchState) : Prop where
  cells : ∀ id, CellKept (s.shared.cells id)
  /-- The events of a live watch's directory come with its descriptor, which finds it. -/
  watched : ∀ id watch, Live s.shared id watch → id ∈ s.shared.byDescriptor watch.descriptor ∧
    (s.shared.kernel watch.directory = some watch.descriptor ∨ s.shared.deleted watch.directory = true)
  single : ∀ t t' id, inside (s.calls t) = some id → inside (s.calls t') = some id → t = t'
  answers : ∀ t, Answers s.shared (s.calls t)

/-- A state but for whether a wait is inside. -/
def Same (a b : State) : Prop :=
  a.names = b.names ∧ a.rebound = b.rebound ∧ a.overflowed = b.overflowed ∧ a.first = b.first ∧
    a.last = b.last ∧ a.ended = b.ended

structure StepKept (s : WatchState) (e : WatchEvent) (s' : WatchState) : Prop where
  /-- A delivery goes to every live watch of the directory, an overflow to every live watch. -/
  reached : ∀ now event todo, e = .read now → s'.shared.delivery = .going event now todo →
    ∀ id watch, Live s.shared id watch →
      event.descriptor = some watch.descriptor ∨ event.descriptor = none → (id, watch) ∈ todo
  /-- A live watch that it goes to ends or records it. -/
  arrived : ∀ now event todo id watch, e = .arrive →
    s.shared.delivery = .going event now ((id, watch) :: todo) → Live s.shared id watch →
      if isGone event then (s'.shared.cells id).state.ended = some .gone
      else (s'.shared.cells id).history =
        (s.shared.cells id).history ++ arrival watch.target (effectOn event watch)
  /-- The first end is the last. -/
  lasting : ∀ id why, (s.shared.cells id).state.ended = some why →
    (s'.shared.cells id).state.ended = some why
  /-- A wait that answers no change leaves what was gathered. -/
  leaves : ∀ t requested now id before report took, e = .task t (.turn requested now) →
    s'.calls t = .answered id before report took → report.code ≠ changed →
      Same (s'.shared.cells id).state (s.shared.cells id).state ∧
        (s'.shared.cells id).gathered = (s.shared.cells id).gathered
  /-- One that reports takes all of it. -/
  takes : ∀ t requested now id before report took, e = .task t (.turn requested now) →
    s'.calls t = .answered id before report took → report.code = changed →
      took = (s.shared.cells id).gathered ∧ (s'.shared.cells id).gathered = []
  /-- A wait that finds changes, and the quiet period over, reports them. -/
  reports : ∀ t now id before, e = .task t (.turn false now) →
    s.calls t = .blocked id before ∨
      s.calls t = .entering id before ∧ (s.shared.cells id).state.waiting = false →
    (s.shared.cells id).state.ended = none → (s.shared.cells id).gathered ≠ [] →
    settled (s.shared.cells id).state now = true →
      ∃ report took, s'.calls t = .answered id before report took ∧ report.code = changed

/-- No watch starts on a directory whose entry a delivery is about to drop. -/
def Undisturbed (s : WatchState) : WatchEvent → Prop
  | .task _ (.start directory _ _) => ∀ event now todo, s.shared.delivery = .going event now todo →
      isGone event = true → event.descriptor ≠ some (addWatch s.shared directory).1
  | _ => True

end Statements

section Cells

variable {cell : Cell}

theorem kept_fresh : CellKept .fresh where
  bounded := Nat.zero_le _
  timed := ⟨⟨nofun, nofun⟩, fun _ => ⟨rfl, rfl⟩⟩
  pending := ⟨nofun, fun h => absurd rfl h⟩
  whole := rfl
  held := nofun
  reported := nofun

theorem finish_cases (s : State) (why : End) : (finish s why).2 = s ∨
    s.ended = none ∧ (finish s why).2 = { s with ended := some why } := by
  unfold finish
  cases hended : s.ended with
  | some _ => exact .inl rfl
  | none => exact .inr ⟨rfl, rfl⟩

theorem kept_finish (h : CellKept cell) (why : End) : CellKept (cell.finish why) := by
  have hstate : (cell.finish why).state = (finish cell.state why).2 := rfl
  rcases finish_cases cell.state why with hsame | ⟨-, hended⟩
  · refine ⟨?_, ?_, ?_, h.whole, ?_, h.reported⟩ <;> rw [hstate, hsame]
    · exact h.bounded
    · exact h.timed
    · exact h.pending
    · exact h.held
  · refine ⟨?_, ?_, ?_, h.whole, ?_, h.reported⟩ <;> rw [hstate, hended]
    · exact h.bounded
    · exact h.timed
    · exact h.pending
    · exact h.held

theorem timed_stamp {s : State} (now : ℕ) (h : s.pending = true) : Timed (stamp s now) := by
  have hpending : (stamp s now).pending = true := h
  refine ⟨⟨fun _ => ⟨rfl, rfl⟩, fun _ => hpending⟩, fun hnone => ?_⟩
  rw [hpending] at hnone
  cases hnone

theorem addName_cases (s : State) (name : Text) (rebound : Bool) (hbound : s.names.card ≤ maxNames) :
    (addName s name rebound).names.card ≤ maxNames ∧ (addName s name rebound).pending = true ∧
      Covered (addName s name rebound).names (addName s name rebound).overflowed
        (addName s name rebound).rebound (.named name rebound) ∧
      ∀ a, Covered s.names s.overflowed s.rebound a →
        Covered (addName s name rebound).names (addName s name rebound).overflowed
          (addName s name rebound).rebound a := by
  unfold addName
  dsimp only
  by_cases hroom : s.names.card < maxNames ∨ name ∈ s.names
  · rw [if_pos hroom]
    refine ⟨?_, ?_, ⟨.inl (Finset.mem_insert_self _ _), fun h => by rw [h, Bool.or_true]⟩, fun a ha => ?_⟩
    · rcases hroom with hroom | hmem
      · exact Nat.le_trans (Finset.card_insert_le _ _) hroom
      · rwa [Finset.insert_eq_of_mem hmem]
    · simp [State.pending]
    · cases a with
      | named other moved =>
        exact ⟨ha.1.imp_left (Finset.mem_insert_of_mem ·), fun h => by rw [ha.2 h, Bool.true_or]⟩
      | lost database => exact ⟨ha.1, fun h => by rw [ha.2 h, Bool.true_or]⟩
  · rw [if_neg hroom]
    refine ⟨hbound, ?_, ⟨.inr rfl, fun h => by rw [h, Bool.or_true]⟩, fun a ha => ?_⟩
    · simp [State.pending]
    · cases a with
      | named other moved => exact ⟨.inr rfl, fun h => by rw [ha.2 h, Bool.true_or]⟩
      | lost database => exact ⟨rfl, fun h => by rw [ha.2 h, Bool.true_or]⟩

theorem lose_cases (s : State) (target : Target) :
    (lose s target).names = s.names ∧ (lose s target).pending = true ∧
      Covered (lose s target).names (lose s target).overflowed (lose s target).rebound
        (.lost (target ≠ .directory)) ∧
      ∀ a, Covered s.names s.overflowed s.rebound a →
        Covered (lose s target).names (lose s target).overflowed (lose s target).rebound a := by
  unfold lose
  refine ⟨rfl, ?_, ⟨rfl, fun h => ?_⟩, fun a ha => ?_⟩
  · simp [State.pending]
  · rw [h, Bool.or_true]
  · cases a with
    | named other moved => exact ⟨.inr rfl, fun h => by rw [ha.2 h, Bool.true_or]⟩
    | lost database => exact ⟨rfl, fun h => by rw [ha.2 h, Bool.true_or]⟩

theorem kept_record (h : CellKept cell) (target : Target) (effect : Option Effect) (now : ℕ) :
    CellKept (cell.record target effect now) := by
  unfold Cell.record Watches.record
  cases hended : cell.state.ended with
  | some _ => exact h
  | none =>
    dsimp only
    have brought_ne (a : Arrival) (l : List Arrival) : l ++ [a] ≠ [] := fun h => by cases l <;> cases h
    have whole (brought : List Arrival) : cell.history ++ brought =
        (cell.reports.map (·.2)).flatten ++ (cell.gathered ++ brought) := by
      rw [h.whole, List.append_assoc]
    cases effect with
    | none =>
      obtain ⟨hnames, hpending, hcovered, hkept⟩ := lose_cases cell.state target
      refine ⟨?_, timed_stamp now hpending, ⟨fun _ => brought_ne _ _, fun _ => hpending⟩, whole _,
        fun a ha => ?_, h.reported⟩
      · change (lose cell.state target).names.card ≤ maxNames
        rw [hnames]
        exact h.bounded
      · rcases List.mem_append.mp ha with ha | ha
        · exact hkept a (h.held a ha)
        · exact List.mem_singleton.mp ha ▸ hcovered
    | some effect =>
      cases effect with
      | nothing =>
        have hsame : cell.gathered ++ arrival target (some .nothing) = cell.gathered := List.append_nil _
        refine ⟨h.bounded, h.timed, ?_, whole _, ?_, h.reported⟩
        · exact hsame.symm ▸ h.pending
        · exact hsame.symm ▸ h.held
      | named name rebound =>
        obtain ⟨hbound, hpending, hcovered, hkept⟩ := addName_cases cell.state name rebound h.bounded
        refine ⟨hbound, timed_stamp now hpending, ⟨fun _ => brought_ne _ _, fun _ => hpending⟩, whole _,
          fun a ha => ?_, h.reported⟩
        rcases List.mem_append.mp ha with ha | ha
        · exact hkept a (h.held a ha)
        · exact List.mem_singleton.mp ha ▸ hcovered

theorem poll_cases (s : State) (requested : Bool) (now : ℕ) : poll s requested now = none ∧ s.ended = none ∨
    (∃ why, s.ended = some why ∧ poll s requested now = some (.ended (code why), s)) ∨
    (s.ended = none ∧ poll s requested now = some (.ended canceled, s)) ∨
    (s.ended = none ∧ poll s requested now = some (gathered s, drained s)) := by
  unfold poll
  cases hended : s.ended with
  | some why => exact .inr (.inl ⟨why, rfl, rfl⟩)
  | none =>
    dsimp only
    by_cases hrequested : requested = true
    · rw [if_pos hrequested]
      exact .inr (.inr (.inl ⟨rfl, rfl⟩))
    · rw [if_neg hrequested]
      by_cases hready : (s.pending && settled s now) = true
      · rw [if_pos hready]
        exact .inr (.inr (.inr ⟨rfl, rfl⟩))
      · rw [if_neg hready]
        exact .inl ⟨rfl, rfl⟩

theorem code_ne_changed (why : End) : code why ≠ changed := by
  cases why <;> decide

/-- The first end stays, and so does each report. -/
structure Grown (c d : Cell) : Prop where
  ended : ∀ why, c.state.ended = some why → d.state.ended = some why
  reports : ∀ entry ∈ c.reports, entry ∈ d.reports

theorem grown_refl (c : Cell) : Grown c c := ⟨fun _ h => h, fun _ h => h⟩

theorem Grown.live {c d : Cell} (h : Grown c d) (hd : d.state.ended = none) :
    c.state.ended = none := by
  cases hc : c.state.ended with
  | none => rfl
  | some why =>
    rw [h.ended why hc] at hd
    cases hd

theorem grown_finish (c : Cell) (why : End) : Grown c (c.finish why) := by
  refine ⟨fun first hfirst => ?_, fun _ h => h⟩
  change (finish c.state why).2.ended = some first
  rcases finish_cases c.state why with hsame | ⟨hnone, -⟩
  · rw [hsame, hfirst]
  · rw [hnone] at hfirst
    cases hfirst

theorem waiting_finish (c : Cell) (why : End) : (c.finish why).state.waiting = c.state.waiting := by
  change (finish c.state why).2.waiting = c.state.waiting
  rcases finish_cases c.state why with hsame | ⟨-, hended⟩
  · rw [hsame]
  · rw [hended]

theorem record_cases (c : Cell) (target : Target) (effect : Option Effect) (now : ℕ) :
    (∃ why, c.state.ended = some why) ∧ c.record target effect now = c ∨
    c.state.ended = none ∧ (c.record target effect now).state.ended = none ∧
      (c.record target effect now).reports = c.reports ∧
      (c.record target effect now).state.waiting = c.state.waiting ∧
      (c.record target effect now).history = c.history ++ arrival target effect := by
  unfold Cell.record Watches.record
  cases hended : c.state.ended with
  | some why => exact .inl ⟨⟨why, rfl⟩, rfl⟩
  | none =>
    refine .inr ⟨rfl, ?_, rfl, ?_, rfl⟩
    all_goals
      cases effect with
      | none => first | exact hended | rfl
      | some effect =>
        cases effect with
        | nothing => first | exact hended | rfl
        | named name rebound =>
          dsimp only [stamp, addName]
          split
          all_goals first | exact hended | rfl

theorem grown_record (c : Cell) (target : Target) (effect : Option Effect) (now : ℕ) :
    Grown c (c.record target effect now) := by
  rcases record_cases c target effect now with ⟨-, hsame⟩ | ⟨hnone, -, hreports, -⟩
  · rw [hsame]
    exact grown_refl c
  · refine ⟨fun why h => ?_, fun entry h => hreports ▸ h⟩
    rw [hnone] at h
    cases h

theorem waiting_record (c : Cell) (target : Target) (effect : Option Effect) (now : ℕ) :
    (c.record target effect now).state.waiting = c.state.waiting := by
  rcases record_cases c target effect now with ⟨-, hsame⟩ | ⟨-, -, -, hwaiting, -⟩
  · rw [hsame]
  · exact hwaiting

/-- What a wait's turn leaves, and what it answers. -/
structure Turned (c : Cell) (result : Option (Report × List Arrival)) (d : Cell) : Prop where
  kept : CellKept d
  grown : Grown c d
  ends : ∀ entry why, result = some entry → c.state.ended = some why → entry.1 = .ended (code why)
  blocks : result = none → c.state.ended = none
  listed : ∀ entry, result = some entry → entry.1.code = changed →
    entry ∈ d.reports ∧ entry.2 = c.gathered ∧ d.gathered = []
  leaves : ∀ entry, result = some entry → entry.1.code ≠ changed →
    entry.2 = [] ∧ Same d.state c.state ∧ d.gathered = c.gathered

theorem same_leave (s : State) : Same (leave s) s := ⟨rfl, rfl, rfl, rfl, rfl, rfl⟩

theorem kept_leave (h : CellKept cell) : CellKept { cell with state := leave cell.state } :=
  ⟨h.bounded, h.timed, h.pending, h.whole, h.held, h.reported⟩

theorem kept_report (h : CellKept cell) : CellKept { cell with
    state := leave (drained cell.state), gathered := []
    reports := cell.reports ++ [(gathered cell.state, cell.gathered)] } where
  bounded := Nat.zero_le _
  timed := ⟨⟨nofun, nofun⟩, fun _ => ⟨rfl, rfl⟩⟩
  pending := ⟨nofun, fun h => absurd rfl h⟩
  whole := by
    rw [h.whole, List.map_append, List.flatten_append, List.append_nil]
    simp only [List.map_cons, List.map_nil, List.flatten_cons, List.flatten_nil, List.append_nil]
  held := nofun
  reported entry hentry := by
    rcases List.mem_append.mp hentry with hentry | hentry
    · exact h.reported entry hentry
    · rw [List.mem_singleton.mp hentry]
      exact ⟨rfl, h.held⟩

theorem turned_none {c : Cell} (h : CellKept c) (hnone : c.state.ended = none) : Turned c none c :=
  ⟨h, grown_refl c, nofun, fun _ => hnone, nofun, nofun⟩

theorem turned_left {c d : Cell} {report : Report} (h : CellKept d) (hgrown : Grown c d)
    (hends : ∀ why, c.state.ended = some why → report = .ended (code why))
    (hcode : report.code ≠ changed) (hsame : Same d.state c.state)
    (hgathered : d.gathered = c.gathered) : Turned c (some (report, [])) d where
  kept := h
  grown := hgrown
  ends := by
    rintro _ why ⟨⟩ hwhy
    exact hends why hwhy
  blocks := nofun
  listed := by
    rintro _ ⟨⟩ hchanged
    exact absurd hchanged hcode
  leaves := by
    rintro _ ⟨⟩ -
    exact ⟨rfl, hsame, hgathered⟩

theorem turn_cases {c : Cell} (h : CellKept c) (requested : Bool) (now : ℕ) :
    Turned c (c.turn requested now).1 (c.turn requested now).2 ∧
      ((c.turn requested now).1 = none → (c.turn requested now).2 = c) ∧
      ((c.turn requested now).1 ≠ none → (c.turn requested now).2.state.waiting = false) := by
  have hleft : Grown c { c with state := leave c.state } := ⟨fun _ h => h, fun _ h => h⟩
  unfold Cell.turn
  rcases poll_cases c.state requested now with ⟨hpoll, hnone⟩ | ⟨why, hwhy, hpoll⟩ |
    ⟨hnone, hpoll⟩ | ⟨hnone, hpoll⟩ <;> rw [hpoll]
  · exact ⟨turned_none h hnone, fun _ => rfl, fun hne => absurd rfl hne⟩
  · have hcode : (Report.ended (code why)).code ≠ changed := code_ne_changed why
    dsimp only
    rw [if_neg hcode]
    refine ⟨turned_left (kept_leave h) hleft ?_ hcode (same_leave _) rfl, nofun, fun _ => rfl⟩
    intro other hother
    rw [hwhy] at hother
    rw [Option.some.inj hother]
  · have hcode : (Report.ended canceled).code ≠ changed := by decide
    dsimp only
    rw [if_neg hcode]
    refine ⟨turned_left (kept_leave h) hleft ?_ hcode (same_leave _) rfl, nofun, fun _ => rfl⟩
    intro other hother
    rw [hnone] at hother
    cases hother
  · have hcode : (gathered c.state).code = changed := rfl
    dsimp only
    rw [if_pos hcode]
    refine ⟨⟨kept_report h, ⟨fun why hwhy => ?_, fun _ => List.mem_append_left _⟩, ?_, nofun, ?_, ?_⟩,
      nofun, fun _ => rfl⟩
    · rw [hnone] at hwhy
      cases hwhy
    · rintro _ why ⟨⟩ hwhy
      rw [hnone] at hwhy
      cases hwhy
    · rintro _ ⟨⟩ -
      exact ⟨List.mem_append_right _ (List.mem_singleton_self _), rfl, rfl⟩
    · rintro _ ⟨⟩ hne
      exact absurd hcode hne

theorem look_cases (s : State) : (∃ why, s.ended = some why ∧ enter s = .error (.ended (code why))) ∨
    s.ended = none ∧ enter s = .error (.ended canceled) ∨
    s.ended = none ∧ s.waiting = false ∧ enter s = .ok { s with waiting := true } := by
  unfold enter
  cases hended : s.ended with
  | some why => exact .inl ⟨why, rfl, rfl⟩
  | none =>
    dsimp only
    by_cases hwaiting : s.waiting = true
    · rw [if_pos hwaiting]
      exact .inr (.inl ⟨rfl, rfl⟩)
    · rw [if_neg hwaiting]
      exact .inr (.inr ⟨rfl, Bool.eq_false_iff.mpr hwaiting, hended ▸ rfl⟩)

theorem enter_cases {c : Cell} (h : CellKept c) (requested : Bool) (now : ℕ) :
    Turned c (c.enter requested now).1 (c.enter requested now).2 ∧
      ((c.enter requested now).1 = none →
        c.state.waiting = false ∧ (c.enter requested now).2.state.waiting = true) ∧
      ((c.enter requested now).1 ≠ none →
        (c.enter requested now).2.state.waiting = c.state.waiting) := by
  have hsame : Same c.state c.state := ⟨rfl, rfl, rfl, rfl, rfl, rfl⟩
  unfold Cell.enter
  rcases look_cases c.state with ⟨why, hwhy, henter⟩ | ⟨hnone, henter⟩ | ⟨hnone, hfree, henter⟩ <;>
    rw [henter] <;> dsimp only
  · refine ⟨turned_left h (grown_refl c) ?_ (code_ne_changed why) hsame rfl, nofun, fun _ => rfl⟩
    intro other hother
    rw [hwhy] at hother
    rw [Option.some.inj hother]
  · refine ⟨turned_left h (grown_refl c) ?_ (show canceled ≠ changed by decide) hsame rfl,
      nofun, fun _ => rfl⟩
    intro other hother
    rw [hnone] at hother
    cases hother
  · have hkept : CellKept { c with state := { c.state with waiting := true } } :=
      ⟨h.bounded, h.timed, h.pending, h.whole, h.held, h.reported⟩
    obtain ⟨hturned, hblocked, hleft⟩ := turn_cases hkept requested now
    refine ⟨⟨hturned.kept, ⟨hturned.grown.ended, hturned.grown.reports⟩, hturned.ends,
      hturned.blocks, hturned.listed, hturned.leaves⟩, fun hresult => ⟨hfree, ?_⟩, fun hresult => ?_⟩
    · rw [hblocked hresult]
    · rw [hleft hresult, hfree]

theorem turn_reports {c : Cell} {now : ℕ} (hnone : c.state.ended = none) (hpending : c.state.pending = true)
    (hsettled : settled c.state now = true) :
    (c.turn false now).1 = some (gathered c.state, c.gathered) := by
  have hpoll : poll c.state false now = some (gathered c.state, drained c.state) := by
    rw [poll, hnone]
    dsimp only
    rw [if_neg Bool.false_ne_true, hpending, hsettled]
    rfl
  rw [Cell.turn, hpoll]
  dsimp only
  rw [if_pos (show (gathered c.state).code = changed from rfl)]

theorem enter_reports {c : Cell} {now : ℕ} (hnone : c.state.ended = none) (hfree : c.state.waiting = false)
    (hpending : c.state.pending = true) (hsettled : settled c.state now = true) :
    (c.enter false now).1 = some (gathered c.state, c.gathered) := by
  have henter : Watches.enter c.state = .ok { c.state with waiting := true } := by
    rw [Watches.enter, hnone]
    dsimp only
    rw [hfree, if_neg Bool.false_ne_true, ← hnone]
  rw [Cell.enter, henter]
  exact turn_reports (c := { c with state := { c.state with waiting := true } }) hnone hpending hsettled

end Cells

end WatchDeliveries
