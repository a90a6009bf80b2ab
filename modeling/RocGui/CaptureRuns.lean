import RocGui.Captures

/-! What a capture loses does not make the writer fail, but for a frame whose owner reports its
work afterwards. -/
namespace CaptureRuns

open CaptureEvents Captures Transitions

section Tables

variable {ρ κ : Type} [DecidableEq κ] {key : ρ → κ} {message : ρ → String} {table rows : List ρ}

theorem require_ok {p : Prop} [Decidable p] (h : p) (message : String) : require p message = .ok () :=
  if_pos h

theorem insertRow_ok {row : ρ} (h : key row ∉ table.map key) :
    insertRow key message table row = .ok (table ++ [row]) := if_neg h

theorem insertRows_ok (fresh : ∀ row ∈ rows, key row ∉ table.map key) (nodup : (rows.map key).Nodup) :
    insertRows key message table rows = .ok (table ++ rows) := by
  induction rows generalizing table with
  | nil =>
    rw [List.append_nil]
    rfl
  | cons row rows ih =>
    obtain ⟨hrow, hrows⟩ := List.nodup_cons.mp nodup
    have hfirst : insertRow key message table row = .ok (table ++ [row]) :=
      insertRow_ok (fresh row List.mem_cons_self)
    have hrest : ∀ other ∈ rows, key other ∉ (table ++ [row]).map key := by
      intro other hother hmem
      rw [List.map_append, List.mem_append] at hmem
      rcases hmem with hmem | hmem
      · exact fresh other (List.mem_cons_of_mem _ hother) hmem
      · rw [List.map_singleton, List.mem_singleton] at hmem
        exact hrow (hmem ▸ List.mem_map_of_mem hother)
    have hall := ih hrest hrows
    rw [List.append_assoc, List.singleton_append] at hall
    rw [insertRows, List.foldlM_cons, hfirst]
    exact hall

theorem children_ok {table : List (ℕ × κ)} {id : ℕ} {kinds : List κ} {message : ℕ × κ → String}
    (fresh : ∀ row ∈ table, row.1 ≠ id) (nodup : kinds.Nodup) :
    insertRows (fun row => row) message table (kinds.map fun kind => (id, kind)) =
      .ok (table ++ kinds.map fun kind => (id, kind)) := by
  refine insertRows_ok ?_ ?_
  · intro row hrow hmem
    obtain ⟨kind, -, rfl⟩ := List.mem_map.mp hrow
    rw [List.map_id'] at hmem
    exact fresh _ hmem rfl
  · rw [List.map_id']
    exact nodup.map fun a b h => (Prod.mk.inj h).2

variable {keys : List κ} {k : κ} {i : ℕ}

theorem select_mem (h : k ∈ keys) : select keys k = some (keys.idxOf k) := if_pos h

theorem select_lt (h : select keys k = some i) : i < keys.length := by
  unfold select at h
  split at h
  · rename_i hmem
    rw [← Option.some.inj h]
    exact List.idxOf_lt_length_of_mem hmem
  · cases h

theorem select_inj {k' : κ} (h : select keys k = some i) (h' : select keys k' = some i) : k = k' := by
  unfold select at h h'
  split at h
  · rename_i hmem
    split at h'
    · exact (List.idxOf_inj hmem).mp ((Option.some.inj h).trans (Option.some.inj h').symm)
    · cases h'
  · cases h

theorem select_append (h : select keys k = some i) (more : List κ) : select (keys ++ more) k = some i := by
  unfold select at h ⊢
  split at h
  · rename_i hmem
    rw [if_pos (List.mem_append_left _ hmem), List.idxOf_append_of_mem hmem]
    exact h
  · cases h

end Tables

section Writing

variable {db : Database}

theorem idxOf_new {κ : Type} [BEq κ] [LawfulBEq κ] {keys : List κ} {k : κ} (h : k ∉ keys) :
    (keys ++ [k]).idxOf k = keys.length := by
  rw [List.idxOf_append_of_notMem h, List.idxOf_cons_self, Nat.add_zero]

theorem lt_append {α : Type} {xs : List α} {i : ℕ} (h : i < xs.length) (x : α) :
    i < (xs ++ [x]).length := by
  rw [List.length_append]
  exact Nat.lt_add_right _ h

theorem new_lt {α : Type} (xs : List α) (x : α) : xs.length < (xs ++ [x]).length := by
  rw [List.length_append]
  exact Nat.lt_succ_self _

theorem children_lt {α κ : Type} {table : List (ℕ × κ)} {parents : List α} {kinds : List κ} {x : α}
    (h : ∀ row ∈ table, row.1 < parents.length) :
    ∀ row ∈ table ++ kinds.map (fun kind => (parents.length, kind)), row.1 < (parents ++ [x]).length := by
  intro row hrow
  rcases List.mem_append.mp hrow with hrow | hrow
  · exact lt_append (h row hrow) x
  · obtain ⟨kind, -, rfl⟩ := List.mem_map.mp hrow
    exact new_lt parents x

theorem writeRunStart_ok (whole : db.Whole) {id : ℤ} (h : id ∉ db.runs) :
    writeRunStart db id = .ok { db with runs := db.runs ++ [id] } ∧
      Database.Whole { db with runs := db.runs ++ [id] } := by
  constructor
  · rw [writeRunStart, insertRow_ok (by rwa [List.map_id'])]
    rfl
  · have runs {run : ℤ} (hrun : run ∈ db.runs) : run ∈ db.runs ++ [id] := List.mem_append_left _ hrun
    exact { whole with
      steps := fun step hstep => runs (whole.steps step hstep)
      cycles := fun row hrow => runs (whole.cycles row hrow)
      frames := fun frame hframe => runs (whole.frames frame hframe)
      passes := fun row hrow => ⟨runs (whole.passes row hrow).1, (whole.passes row hrow).2⟩ }

theorem nodup_assertedKinds (result : StepResult) : (assertedKinds result).Nodup := by
  unfold assertedKinds
  split
  · exact .nil
  · exact (List.nodup_finRange _).filter _

theorem nodup_countedKinds (c : Cycle) : (countedKinds c).Nodup := by
  unfold countedKinds
  split
  · exact .nil
  · exact (List.nodup_finRange _).filter _

theorem nodup_nativeRows (work : NativeWork) : (nativeRows work).Nodup := by
  unfold nativeRows
  refine List.Nodup.append ?_ ?_ ?_
  · exact ((List.nodup_finRange _).filter _).map fun a b h => (Prod.mk.inj h).2
  · exact ((List.nodup_finRange _).filter _).map fun a b h => (Prod.mk.inj h).2
  · intro row hrow hrow'
    obtain ⟨_, -, rfl⟩ := List.mem_map.mp hrow
    obtain ⟨_, -, heq⟩ := List.mem_map.mp hrow'
    cases heq

theorem nodup_linkedCycles {frame : GpuiFrame} (nodup : frame.cycles.Nodup) :
    (linkedCycles db frame).Nodup := by
  refine nodup.filterMap fun a b i hi hi' => ?_
  exact (Prod.mk.inj (select_inj hi hi')).2

def withStep (db : Database) (result : StepResult) : Database :=
  { db with
    steps := db.steps ++ [(result.runId, result.ordinal)]
    counterAssertions := db.counterAssertions ++
      (assertedFamilies result).map fun family => (db.steps.length, family)
    componentAssertions := db.componentAssertions ++
      (assertedKinds result).map fun kind => (db.steps.length, kind) }

theorem writeStep_ok (whole : db.Whole) {result : StepResult} (hrun : result.runId ∈ db.runs)
    (hnew : (result.runId, result.ordinal) ∉ db.steps) : writeStep db result = .ok (withStep db result) := by
  have hfamilies : (assertedFamilies result).Nodup := List.Nodup.filter _ (by decide)
  unfold writeStep
  dsimp only
  rw [require_ok hrun, insertRow_ok (by rwa [List.map_id'])]
  dsimp only [bind, Except.bind]
  rw [idxOf_new hnew, children_ok (fun row hrow => (whole.counterAssertions row hrow).ne) hfamilies]
  dsimp only
  rw [children_ok (fun row hrow => (whole.componentAssertions row hrow).ne) (nodup_assertedKinds result)]
  rfl

theorem whole_withStep (whole : db.Whole) {result : StepResult} (hrun : result.runId ∈ db.runs) :
    (withStep db result).Whole where
  steps step hstep := by
    rcases List.mem_append.mp hstep with hstep | hstep
    · exact whole.steps step hstep
    · rw [List.mem_singleton.mp hstep]
      exact hrun
  counterAssertions := children_lt whole.counterAssertions
  componentAssertions := children_lt whole.componentAssertions
  cycles := whole.cycles
  componentCounts := whole.componentCounts
  rocSpans := whole.rocSpans
  frames := whole.frames
  nativeWork := whole.nativeWork
  frameWork := whole.frameWork
  frameCycles := whole.frameCycles
  passes := whole.passes

def withCycle (db : Database) (c : Cycle) : Database :=
  { db with
    cycles := db.cycles ++ [⟨c.runId, c.ordinal, c.rocWorkValid, c.componentWork.isSome⟩]
    componentCounts := db.componentCounts ++ (countedKinds c).map fun kind => (db.cycles.length, kind)
    rocSpans := db.rocSpans ++ (workedKinds c).map fun kind => (db.cycles.length, kind) }

theorem writeCycle_ok (whole : db.Whole) {c : Cycle} (hrun : c.runId ∈ db.runs)
    (hinterval : c.startNs ≤ c.endNs) (hstep : ∀ step ∈ c.stepOrdinal, (c.runId, step) ∈ db.steps)
    (hnew : (c.runId, c.ordinal) ∉ db.cycles.map CycleRow.key) :
    writeCycle db c = .ok (withCycle db c) := by
  have hworked : (workedKinds c).Nodup := (List.nodup_finRange _).filter _
  unfold writeCycle
  dsimp only
  rw [require_ok ⟨hrun, hinterval, hstep⟩, insertRow_ok hnew]
  dsimp only [bind, Except.bind]
  rw [children_ok (fun row hrow => (whole.componentCounts row hrow).ne) (nodup_countedKinds c)]
  dsimp only
  rw [children_ok (fun row hrow => (whole.rocSpans row hrow).ne) hworked]
  rfl

theorem whole_withCycle (whole : db.Whole) {c : Cycle} (hrun : c.runId ∈ db.runs) :
    (withCycle db c).Whole where
  steps := whole.steps
  counterAssertions := whole.counterAssertions
  componentAssertions := whole.componentAssertions
  cycles row hrow := by
    rcases List.mem_append.mp hrow with hrow | hrow
    · exact whole.cycles row hrow
    · rw [List.mem_singleton.mp hrow]
      exact hrun
  componentCounts := children_lt whole.componentCounts
  rocSpans := children_lt whole.rocSpans
  frames := whole.frames
  nativeWork := whole.nativeWork
  frameWork := whole.frameWork
  frameCycles row hrow := ⟨(whole.frameCycles row hrow).1, lt_append (whole.frameCycles row hrow).2 _⟩
  passes row hrow := ⟨(whole.passes row hrow).1, (whole.passes row hrow).2.1,
    fun i hi => lt_append ((whole.passes row hrow).2.2 i hi) _⟩

def withFrame (db : Database) (frame : GpuiFrame) : Database :=
  { db with
    frames := db.frames ++ [frame.ordinal]
    frameCycles := db.frameCycles ++ (linkedCycles db frame).map fun cycle => (db.frames.length, cycle)
    nativeWork := db.nativeWork ++ (nativeRows frame.nativeWork).map fun row => (db.frames.length, row) }

theorem writeGpuiFrame_ok (whole : db.Whole) {frame : GpuiFrame} (hrun : 1 ∈ db.runs)
    (hinterval : frame.startNs ≤ frame.endNs) (hcycles : frame.cycles.Nodup)
    (hnew : frame.ordinal ∉ db.frames) : writeGpuiFrame db frame = .ok (withFrame db frame) := by
  unfold writeGpuiFrame
  dsimp only
  rw [require_ok ⟨hrun, hinterval⟩, insertRow_ok (by rwa [List.map_id'])]
  dsimp only [bind, Except.bind]
  rw [children_ok (fun row hrow => (whole.frameCycles row hrow).1.ne) (nodup_linkedCycles hcycles)]
  dsimp only
  rw [children_ok (fun row hrow => (whole.nativeWork row hrow).ne) (nodup_nativeRows _)]
  rfl

theorem whole_withFrame (whole : db.Whole) (frame : GpuiFrame) (hrun : 1 ∈ db.runs) :
    (withFrame db frame).Whole where
  steps := whole.steps
  counterAssertions := whole.counterAssertions
  componentAssertions := whole.componentAssertions
  cycles := whole.cycles
  componentCounts := whole.componentCounts
  rocSpans := whole.rocSpans
  frames _ _ := hrun
  nativeWork := children_lt whole.nativeWork
  frameWork row hrow := lt_append (whole.frameWork row hrow) _
  frameCycles row hrow := by
    rcases List.mem_append.mp hrow with hrow | hrow
    · exact ⟨lt_append (whole.frameCycles row hrow).1 _, (whole.frameCycles row hrow).2⟩
    · obtain ⟨cycle, hcycle, rfl⟩ := List.mem_map.mp hrow
      obtain ⟨_, -, hselect⟩ := List.mem_filterMap.mp hcycle
      have hlt := select_lt hselect
      rw [List.length_map] at hlt
      exact ⟨new_lt _ _, hlt⟩
  passes row hrow := ⟨(whole.passes row hrow).1,
    fun i hi => lt_append ((whole.passes row hrow).2.1 i hi) _, (whole.passes row hrow).2.2⟩

def withFrameWork (db : Database) (id : ℕ) : Database :=
  { db with frameWork := db.frameWork ++ (List.finRange frameMetrics).map fun metric => (id, metric) }

theorem writeGpuiFrameWork_ok {ordinal id : ℕ} (hframe : select db.frames ordinal = some id)
    (hnew : ∀ row ∈ db.frameWork, row.1 ≠ id) :
    writeGpuiFrameWork db ordinal = .ok (withFrameWork db id) := by
  unfold writeGpuiFrameWork
  rw [hframe]
  dsimp only
  rw [children_ok hnew (List.nodup_finRange _)]
  rfl

theorem whole_withFrameWork (whole : db.Whole) {id : ℕ} (hid : id < db.frames.length) :
    (withFrameWork db id).Whole :=
  { whole with
    frameWork := fun row hrow => by
      rcases List.mem_append.mp hrow with hrow | hrow
      · exact whole.frameWork row hrow
      · obtain ⟨_, -, rfl⟩ := List.mem_map.mp hrow
        exact hid }

def withPass (db : Database) (pass : ListPass) : Database :=
  { db with passes := db.passes ++ [passRow db pass.origin] }

theorem writeListPass_ok {pass : ListPass} (hrun : 1 ∈ db.runs) (hinterval : pass.startNs ≤ pass.endNs) :
    writeListPass db pass = .ok (withPass db pass) := by
  rw [writeListPass, require_ok ⟨hrun, hinterval⟩]
  rfl

theorem whole_withPass (whole : db.Whole) (pass : ListPass) (hrun : 1 ∈ db.runs) :
    (withPass db pass).Whole :=
  { whole with
    passes := fun row hrow => by
      rcases List.mem_append.mp hrow with hrow | hrow
      · exact whole.passes row hrow
      · rw [List.mem_singleton.mp hrow]
        refine ⟨hrun, ?_, ?_⟩
        · intro i hi
          cases horigin : pass.origin with
          | paint frame =>
            rw [horigin] at hi
            obtain ⟨_, -, hselect⟩ := Option.bind_eq_some_iff.mp hi
            exact select_lt hselect
          | patch cycle =>
            rw [horigin] at hi
            cases hi
        · intro i hi
          cases horigin : pass.origin with
          | paint frame =>
            rw [horigin] at hi
            cases hi
          | patch cycle =>
            rw [horigin] at hi
            obtain ⟨_, -, hselect⟩ := Option.bind_eq_some_iff.mp hi
            have hlt := select_lt hselect
            rwa [List.length_map] at hlt }

end Writing

section Fitting

def Fits (lost : List ℕ) (before : List CaptureEvent) : CaptureEvent → Prop
  | .runStart id _ => ∀ phase, .runStart id phase ∉ before
  | .runEnd .. => True
  | .step result => (∃ phase, .runStart result.runId phase ∈ before) ∧
      ∀ other, .step other ∈ before → (other.runId, other.ordinal) ≠ (result.runId, result.ordinal)
  | .cycle c => (∃ phase, .runStart c.runId phase ∈ before) ∧ c.startNs ≤ c.endNs ∧
      (∀ other, .cycle other ∈ before → (other.runId, other.ordinal) ≠ (c.runId, c.ordinal)) ∧
      ∀ ordinal ∈ c.stepOrdinal, ∃ result, .step result ∈ before ∧
        (result.runId, result.ordinal) = (c.runId, ordinal)
  | .gpuiFrame frame => (∃ phase, .runStart 1 phase ∈ before) ∧ frame.startNs ≤ frame.endNs ∧
      frame.cycles.Nodup ∧ ∀ other, .gpuiFrame other ∈ before → other.ordinal ≠ frame.ordinal
  | .gpuiFrameWork ordinal _ => (∀ counts, .gpuiFrameWork ordinal counts ∉ before) ∧
      (ordinal ∈ lost ∨ ∃ frame, .gpuiFrame frame ∈ before ∧ frame.ordinal = ordinal)
  | .virtualListFrame pass => (∃ phase, .runStart 1 phase ∈ before) ∧ pass.startNs ≤ pass.endNs

/-- The tables are those of the events that were done, less what was lost. -/
structure Mirrors (db : Database) (lost : List ℕ) (done : List CaptureEvent) : Prop where
  runs : ∀ id, id ∈ db.runs ↔ ∃ phase, .runStart id phase ∈ done
  steps : ∀ k, k ∈ db.steps ↔ ∃ result, .step result ∈ done ∧ (result.runId, result.ordinal) = k
  cycles : ∀ k ∈ db.cycles.map CycleRow.key, ∃ c, .cycle c ∈ done ∧ (c.runId, c.ordinal) = k
  frames : ∀ ordinal ∈ db.frames, ∃ frame, .gpuiFrame frame ∈ done ∧ frame.ordinal = ordinal
  drawn : ∀ frame, .gpuiFrame frame ∈ done → frame.ordinal ∈ db.frames ∨ frame.ordinal ∈ lost
  frameWork : ∀ row ∈ db.frameWork, ∃ ordinal counts, .gpuiFrameWork ordinal counts ∈ done ∧
    select db.frames ordinal = some row.1
  whole : db.Whole

variable {db : Database} {lost : List ℕ} {done : List CaptureEvent} {event : CaptureEvent}

theorem mirrors_skip (mirrors : Mirrors db lost done) (event : CaptureEvent)
    (hrun : ∀ id phase, event ≠ .runStart id phase) (hstep : ∀ result, event ≠ .step result) :
    Mirrors db (lost ++ (frameOf event).toList) (done ++ [event]) where
  runs id := by
    rw [mirrors.runs id]
    simp [(hrun id _).symm]
  steps k := by
    rw [mirrors.steps k]
    simp [(hstep _).symm]
  cycles k hk := by
    obtain ⟨c, hc, heq⟩ := mirrors.cycles k hk
    exact ⟨c, List.mem_append_left _ hc, heq⟩
  frames ordinal hordinal := by
    obtain ⟨frame, hframe, heq⟩ := mirrors.frames ordinal hordinal
    exact ⟨frame, List.mem_append_left _ hframe, heq⟩
  drawn frame hframe := by
    rcases List.mem_append.mp hframe with hframe | hframe
    · exact (mirrors.drawn frame hframe).imp_right (List.mem_append_left _)
    · rw [← List.mem_singleton.mp hframe]
      exact .inr (List.mem_append_right _ (List.mem_singleton.mpr rfl))
  frameWork row hrow := by
    obtain ⟨ordinal, counts, hwork, hselect⟩ := mirrors.frameWork row hrow
    exact ⟨ordinal, counts, List.mem_append_left _ hwork, hselect⟩
  whole := mirrors.whole

/-- The next event is written, unless it is the owner work of a lost frame. -/
theorem write_fits (mirrors : Mirrors db lost done) (fits : Fits lost done event)
    (hlost : ∀ ordinal counts, event = .gpuiFrameWork ordinal counts → ordinal ∉ lost) :
    ∃ db', writeEvent db event = .ok db' ∧ Mirrors db' lost (done ++ [event]) := by
  have started {run : ℤ} (h : ∃ phase, .runStart run phase ∈ done) : run ∈ db.runs := (mirrors.runs run).mpr h
  cases event with
  | runStart id phase =>
    have hnew : id ∉ db.runs := fun h => by
      obtain ⟨phase', hphase⟩ := (mirrors.runs id).mp h
      exact fits phase' hphase
    obtain ⟨hwrite, whole⟩ := writeRunStart_ok mirrors.whole hnew
    refine ⟨_, hwrite, ?_, ?_, ?_, ?_, ?_, ?_, whole⟩
    · intro run
      rw [List.mem_append, mirrors.runs run, List.mem_singleton]
      simp only [List.mem_append, List.mem_singleton, CaptureEvent.runStart.injEq]
      constructor
      · rintro (⟨phase', hphase⟩ | rfl)
        · exact ⟨phase', .inl hphase⟩
        · exact ⟨phase, .inr ⟨rfl, rfl⟩⟩
      · rintro ⟨phase', hphase | ⟨rfl, -⟩⟩
        · exact .inl ⟨phase', hphase⟩
        · exact .inr rfl
    · simpa using mirrors.steps
    · simpa using mirrors.cycles
    · simpa using mirrors.frames
    · simpa using mirrors.drawn
    · simpa using mirrors.frameWork
  | runEnd id outcome =>
    have hskip := mirrors_skip mirrors (.runEnd id outcome) nofun nofun
    change Mirrors db (lost ++ []) _ at hskip
    rw [List.append_nil] at hskip
    exact ⟨db, rfl, hskip⟩
  | step result =>
    obtain ⟨hstarted, hunique⟩ := fits
    have hnew : (result.runId, result.ordinal) ∉ db.steps := fun h => by
      obtain ⟨other, hother, heq⟩ := (mirrors.steps _).mp h
      exact hunique other hother heq
    refine ⟨_, writeStep_ok mirrors.whole (started hstarted) hnew, ?_, ?_, ?_, ?_, ?_, ?_,
      whole_withStep mirrors.whole (started hstarted)⟩
    · simpa [withStep] using mirrors.runs
    · intro k
      rw [withStep, List.mem_append, mirrors.steps k, List.mem_singleton]
      simp only [List.mem_append, List.mem_singleton, CaptureEvent.step.injEq]
      constructor
      · rintro (⟨other, hother, heq⟩ | rfl)
        · exact ⟨other, .inl hother, heq⟩
        · exact ⟨result, .inr rfl, rfl⟩
      · rintro ⟨other, hother | rfl, heq⟩
        · exact .inl ⟨other, hother, heq⟩
        · exact .inr heq.symm
    · simpa [withStep] using mirrors.cycles
    · simpa [withStep] using mirrors.frames
    · simpa [withStep] using mirrors.drawn
    · simpa [withStep] using mirrors.frameWork
  | cycle c =>
    obtain ⟨hstarted, hinterval, hunique, hsteps⟩ := fits
    have hnew : (c.runId, c.ordinal) ∉ db.cycles.map CycleRow.key := fun h => by
      obtain ⟨other, hother, heq⟩ := mirrors.cycles _ h
      exact hunique other hother heq
    have hstep : ∀ step ∈ c.stepOrdinal, (c.runId, step) ∈ db.steps :=
      fun step hstep => (mirrors.steps _).mpr (hsteps step hstep)
    refine ⟨_, writeCycle_ok mirrors.whole (started hstarted) hinterval hstep hnew, ?_, ?_, ?_, ?_, ?_, ?_,
      whole_withCycle mirrors.whole (started hstarted)⟩
    · simpa [withCycle] using mirrors.runs
    · simpa [withCycle] using mirrors.steps
    · intro k hk
      rw [withCycle, List.map_append, List.mem_append] at hk
      rcases hk with hk | hk
      · obtain ⟨other, hother, heq⟩ := mirrors.cycles k hk
        exact ⟨other, List.mem_append_left _ hother, heq⟩
      · exact ⟨c, List.mem_append_right _ (List.mem_singleton.mpr rfl), (List.mem_singleton.mp hk).symm⟩
    · simpa [withCycle] using mirrors.frames
    · simpa [withCycle] using mirrors.drawn
    · simpa [withCycle] using mirrors.frameWork
  | gpuiFrame frame =>
    obtain ⟨hstarted, hinterval, hcycles, hunique⟩ := fits
    have hnew : frame.ordinal ∉ db.frames := fun h => by
      obtain ⟨other, hother, heq⟩ := mirrors.frames _ h
      exact hunique other hother heq
    refine ⟨_, writeGpuiFrame_ok mirrors.whole (started hstarted) hinterval hcycles hnew, ?_, ?_, ?_, ?_, ?_,
      ?_, whole_withFrame mirrors.whole frame (started hstarted)⟩
    · simpa [withFrame] using mirrors.runs
    · simpa [withFrame] using mirrors.steps
    · simpa [withFrame] using mirrors.cycles
    · intro ordinal hordinal
      rcases List.mem_append.mp hordinal with hordinal | hordinal
      · obtain ⟨other, hother, heq⟩ := mirrors.frames ordinal hordinal
        exact ⟨other, List.mem_append_left _ hother, heq⟩
      · exact ⟨frame, List.mem_append_right _ (List.mem_singleton.mpr rfl),
          (List.mem_singleton.mp hordinal).symm⟩
    · intro other hother
      rcases List.mem_append.mp hother with hother | hother
      · exact (mirrors.drawn other hother).imp_left (List.mem_append_left _)
      · cases List.mem_singleton.mp hother
        exact .inl (List.mem_append_right _ (List.mem_singleton.mpr rfl))
    · intro row hrow
      obtain ⟨ordinal, counts, hwork, hselect⟩ := mirrors.frameWork row hrow
      exact ⟨ordinal, counts, List.mem_append_left _ hwork, select_append hselect _⟩
  | gpuiFrameWork ordinal counts =>
    obtain ⟨hunique, hdrawn⟩ := fits
    have hordinal := hlost ordinal counts rfl
    obtain ⟨frame, hframe, rfl⟩ := hdrawn.resolve_left hordinal
    have hmem := (mirrors.drawn frame hframe).resolve_right hordinal
    have hselect := select_mem hmem
    have hnew : ∀ row ∈ db.frameWork, row.1 ≠ db.frames.idxOf frame.ordinal := by
      intro row hrow heq
      obtain ⟨other, counts', hwork, hother⟩ := mirrors.frameWork row hrow
      rw [heq] at hother
      rw [select_inj hother hselect] at hwork
      exact hunique counts' hwork
    refine ⟨_, writeGpuiFrameWork_ok hselect hnew, ?_, ?_, ?_, ?_, ?_, ?_,
      whole_withFrameWork mirrors.whole (select_lt hselect)⟩
    · simpa [withFrameWork] using mirrors.runs
    · simpa [withFrameWork] using mirrors.steps
    · simpa [withFrameWork] using mirrors.cycles
    · simpa [withFrameWork] using mirrors.frames
    · simpa [withFrameWork] using mirrors.drawn
    · intro row hrow
      rcases List.mem_append.mp hrow with hrow | hrow
      · obtain ⟨other, counts', hwork, hother⟩ := mirrors.frameWork row hrow
        exact ⟨other, counts', List.mem_append_left _ hwork, hother⟩
      · obtain ⟨_, -, rfl⟩ := List.mem_map.mp hrow
        exact ⟨frame.ordinal, counts, List.mem_append_right _ (List.mem_singleton.mpr rfl), hselect⟩
  | virtualListFrame pass =>
    obtain ⟨hstarted, hinterval⟩ := fits
    have hskip := mirrors_skip mirrors (.virtualListFrame pass) nofun nofun
    change Mirrors db (lost ++ []) _ at hskip
    rw [List.append_nil] at hskip
    exact ⟨_, writeListPass_ok (started hstarted) hinterval, hskip.runs, hskip.steps, hskip.cycles,
      hskip.frames, hskip.drawn, hskip.frameWork, whole_withPass mirrors.whole pass (started hstarted)⟩

theorem fits_lost (h : Fits lost done event) (more : List ℕ) : Fits (lost ++ more) done event := by
  cases event with
  | gpuiFrameWork ordinal counts => exact ⟨h.1, h.2.imp_left (List.mem_append_left _)⟩
  | runStart | runEnd | step | cycle | gpuiFrame | virtualListFrame => exact h

theorem mirrors_lost (mirrors : Mirrors db lost done) (more : List ℕ) : Mirrors db (lost ++ more) done :=
  { mirrors with drawn := fun frame hframe => (mirrors.drawn frame hframe).imp_right (List.mem_append_left _) }

theorem fits_admitted {calls : List CaptureEvent} (h : Fits lost calls event)
    (admitted : ∀ other ∈ done, other ∈ calls)
    (kept : ∀ other ∈ calls, lossless other = true → other ∈ done)
    (drawn : ∀ frame, .gpuiFrame frame ∈ calls → frame.ordinal ∈ lost ∨ .gpuiFrame frame ∈ done) :
    Fits lost done event := by
  have started {run : ℤ} : (∃ phase, .runStart run phase ∈ calls) → ∃ phase, .runStart run phase ∈ done :=
    fun ⟨phase, hphase⟩ => ⟨phase, kept _ hphase rfl⟩
  cases event with
  | runStart id phase => exact fun phase hphase => h phase (admitted _ hphase)
  | runEnd => trivial
  | step result => exact ⟨started h.1, fun other hother => h.2 other (admitted _ hother)⟩
  | cycle c =>
    refine ⟨started h.1, h.2.1, fun other hother => h.2.2.1 other (admitted _ hother), fun ordinal hordinal => ?_⟩
    obtain ⟨result, hresult, heq⟩ := h.2.2.2 ordinal hordinal
    exact ⟨result, kept _ hresult rfl, heq⟩
  | gpuiFrame frame =>
    exact ⟨started h.1, h.2.1, h.2.2.1, fun other hother => h.2.2.2 other (admitted _ hother)⟩
  | gpuiFrameWork ordinal counts =>
    refine ⟨fun counts hcounts => h.1 counts (admitted _ hcounts), ?_⟩
    rcases h.2 with hlost | ⟨frame, hframe, rfl⟩
    · exact .inl hlost
    · exact (drawn frame hframe).imp_right fun hdone => ⟨frame, hdone, rfl⟩
  | virtualListFrame pass => exact ⟨started h.1, h.2⟩

end Fitting

section Invariants

variable {s t : Capture} {config : Config}

/-- No owner work reaches the writer whose frame was lost. -/
def Linked (s : Capture) : CaptureStep → Prop
  | .write => ∀ ordinal counts, s.queue.head? = some (.gpuiFrameWork ordinal counts) → ordinal ∉ s.lost
  | _ => True

structure Queued (s : Capture) : Prop where
  failure : s.failure = none
  counts : s.calls.length = s.rowsWritten + s.omitted + s.queue.length
  mirrors : Mirrors s.db s.lost s.processed
  fits : ∀ front event back, s.queue = front ++ event :: back → Fits s.lost (s.processed ++ front) event
  admitted : ∀ event ∈ s.processed ++ s.queue, event ∈ s.calls
  kept : ∀ event ∈ s.calls, lossless event = true → event ∈ s.processed ++ s.queue
  drawn : ∀ frame, .gpuiFrame frame ∈ s.calls →
    frame.ordinal ∈ s.lost ∨ .gpuiFrame frame ∈ s.processed ++ s.queue

structure Counted (s : Capture) : Prop where
  fresh : ∀ frame, .gpuiFrame frame ∈ s.calls → frame.ordinal < s.frameOrdinal
  worked : ∀ ordinal counts, .gpuiFrameWork ordinal counts ∈ s.calls →
    ordinal < s.frameOrdinal ∧ (s.awaiting = true → ordinal + 1 ≠ s.frameOrdinal)
  awaiting : s.awaiting = true → ∃ frame, .gpuiFrame frame ∈ s.calls ∧ frame.ordinal + 1 = s.frameOrdinal

structure Healthy (s : Capture) : Prop where
  active : s.active = true → s.finishing = false
  health : ∀ health, s.health = some health → s.finishing = true ∧ s.queue = [] ∧
    health.rowsWritten + health.omittedEvents = s.calls.length ∧
      (0 < health.omittedEvents → ∀ family, health.statuses family ≠ .complete)

theorem finalize_lossy (db : Database) (config : Config) (family : Family) :
    finalize db true config family ≠ .complete := by
  have hfinal : finalStatus db true family (initialStatus config family) ≠ .complete := by
    unfold finalStatus
    split
    · rename_i hstatus
      rcases hstatus with h | h | h <;> simp [h]
    · simp only [↓reduceIte]
      repeat' split
      all_goals nofun
  cases family with
  | frameCycleLinkage | virtualListLinkage =>
    simp only [finalize, linkageStatus]
    split
    · exact hfinal
    · simp
  | rocWorkSpans | componentWork => nofun
  | _ => exact hfinal

theorem split_concat {α : Type} {queue front back : List α} {x y : α}
    (h : queue ++ [x] = front ++ y :: back) :
    (∃ back', queue = front ++ y :: back') ∨ queue = front ∧ x = y := by
  rcases List.eq_nil_or_concat back with rfl | ⟨back', z, rfl⟩
  · obtain ⟨hqueue, hx⟩ := List.append_inj' h rfl
    exact .inr ⟨hqueue, (List.cons.inj hx).1⟩
  · rw [List.concat_eq_append, ← List.cons_append, ← List.append_assoc] at h
    exact .inl ⟨back', (List.append_inj' h rfl).1⟩

theorem queued_submit (queued : Queued s) {event : CaptureEvent} (h : Fits s.lost s.calls event)
    (refused : Bool) : Queued (submit s event refused) := by
  unfold submit
  split
  · exact queued
  · dsimp only
    rw [if_neg (by simp [queued.failure])]
    split
    · rename_i hrefused
      have hlossy : lossless event = false := by simpa using (Bool.and_eq_true_iff.mp hrefused).2
      refine ⟨queued.failure, ?_, mirrors_lost queued.mirrors _, ?_, ?_, ?_, ?_⟩
      · have hcounts := queued.counts
        simp only [lose, List.length_append, List.length_singleton]
        omega
      · exact fun front event back hqueue => fits_lost (queued.fits front event back hqueue) _
      · exact fun other hother => List.mem_append_left _ (queued.admitted other hother)
      · intro other hother hlossless
        rcases List.mem_append.mp hother with hother | hother
        · exact queued.kept other hother hlossless
        · rw [List.mem_singleton.mp hother, hlossy] at hlossless
          cases hlossless
      · intro frame hframe
        rcases List.mem_append.mp hframe with hframe | hframe
        · exact (queued.drawn frame hframe).imp_left (List.mem_append_left _)
        · rw [lose, ← List.mem_singleton.mp hframe]
          exact .inl (List.mem_append_right _ (List.mem_singleton.mpr rfl))
    · have hfits := fits_admitted h queued.admitted queued.kept queued.drawn
      refine ⟨queued.failure, ?_, queued.mirrors, ?_, ?_, ?_, ?_⟩
      · have hcounts := queued.counts
        simp only [List.length_append, List.length_singleton]
        omega
      · intro front other back hqueue
        rcases split_concat hqueue with ⟨back', hback⟩ | ⟨rfl, rfl⟩
        · exact queued.fits front other back' hback
        · exact hfits
      · intro other hother
        dsimp only at hother
        rw [← List.append_assoc] at hother
        rcases List.mem_append.mp hother with hother | hother
        · exact List.mem_append_left _ (queued.admitted other hother)
        · exact List.mem_append_right _ hother
      · intro other hother hlossless
        dsimp only
        rw [← List.append_assoc]
        rcases List.mem_append.mp hother with hother | hother
        · exact List.mem_append_left _ (queued.kept other hother hlossless)
        · exact List.mem_append_right _ hother
      · intro frame hframe
        dsimp only
        rw [← List.append_assoc]
        rcases List.mem_append.mp hframe with hframe | hframe
        · exact (queued.drawn frame hframe).imp_right (List.mem_append_left _)
        · exact .inr (List.mem_append_right _ hframe)

theorem queued_write (queued : Queued s) (linked : Linked s .write) (h : write s = some t) : Queued t := by
  unfold write at h
  split at h
  · cases h
  · rename_i event rest hqueue
    have hfits := queued.fits [] event rest hqueue
    rw [List.append_nil] at hfits
    have hlist : s.processed ++ [event] ++ rest = s.processed ++ s.queue := by
      rw [hqueue, List.append_assoc, List.singleton_append]
    have hrest (front : List CaptureEvent) (other : CaptureEvent) (back : List CaptureEvent)
        (hback : rest = front ++ other :: back) : Fits s.lost (s.processed ++ [event] ++ front) other := by
      rw [List.append_assoc, List.singleton_append]
      exact queued.fits (event :: front) other back (by rw [hqueue, hback, List.cons_append])
    have hcounts := queued.counts
    rw [hqueue, List.length_cons] at hcounts
    dsimp only at h
    split at h
    · rename_i hlimited
      have hsacrificed := (Bool.and_eq_true_iff.mp hlimited).2
      obtain rfl := Option.some.inj h
      have hskip := mirrors_skip queued.mirrors event
        (by rintro id phase rfl; cases hsacrificed) (by rintro result rfl; cases hsacrificed)
      refine ⟨queued.failure, ?_, hskip, ?_, ?_, ?_, ?_⟩
      · dsimp only [lose]
        omega
      · exact fun front other back hback => fits_lost (hrest front other back hback) _
      · rw [lose, hlist]
        exact queued.admitted
      · rw [lose, hlist]
        exact queued.kept
      · rw [lose, hlist]
        exact fun frame hframe => (queued.drawn frame hframe).imp_left (List.mem_append_left _)
    · obtain ⟨db, hwrite, mirrors⟩ := write_fits queued.mirrors hfits fun ordinal counts heq =>
        linked ordinal counts (by rw [hqueue, List.head?_cons, heq])
      rw [hwrite] at h
      obtain rfl := Option.some.inj h
      refine ⟨queued.failure, ?_, mirrors, hrest, ?_, ?_, ?_⟩
      · dsimp only
        omega
      · rw [hlist]
        exact queued.admitted
      · rw [hlist]
        exact queued.kept
      · rw [hlist]
        exact queued.drawn

theorem submit_fields (failure : s.failure = none) (event : CaptureEvent) (refused : Bool) :
    (submit s event refused).calls = (if s.finishing then s.calls else s.calls ++ [event]) ∧
      (submit s event refused).frameOrdinal = s.frameOrdinal ∧
        (submit s event refused).awaiting = s.awaiting ∧
          (submit s event refused).finishing = s.finishing ∧
            (submit s event refused).health = s.health ∧ (submit s event refused).active = s.active ∧
              (s.finishing = true → submit s event refused = s) := by
  unfold submit
  by_cases hfinishing : s.finishing = true
  · simp only [hfinishing, if_true, implies_true, and_self]
  · rw [if_neg hfinishing, if_neg hfinishing]
    dsimp only
    rw [if_neg (by simp [failure])]
    refine ⟨?_, ?_, ?_, ?_, ?_, ?_, fun h => absurd h hfinishing⟩
    all_goals
      split <;> rfl

theorem mem_submit (failure : s.failure = none) {event other : CaptureEvent} {refused : Bool}
    (h : other ∈ (submit s event refused).calls) : other ∈ s.calls ∨ other = event := by
  rw [(submit_fields failure event refused).1] at h
  split at h
  · exact .inl h
  · exact (List.mem_append.mp h).imp_right List.mem_singleton.mp

theorem mem_submit_of_mem (failure : s.failure = none) {event other : CaptureEvent} {refused : Bool}
    (h : other ∈ s.calls) : other ∈ (submit s event refused).calls := by
  rw [(submit_fields failure event refused).1]
  split
  · exact h
  · exact List.mem_append_left _ h

theorem counted_submit (counted : Counted s) (failure : s.failure = none) {event : CaptureEvent} {refused : Bool}
    (hframe : ∀ frame, event ≠ .gpuiFrame frame)
    (hwork : ∀ ordinal counts, event ≠ .gpuiFrameWork ordinal counts) :
    Counted (submit s event refused) := by
  obtain ⟨-, hordinal, hawaiting, -⟩ := submit_fields failure event refused
  refine ⟨fun frame h => ?_, fun ordinal counts h => ?_, fun h => ?_⟩
  · rw [hordinal]
    rcases mem_submit failure h with h | h
    · exact counted.fresh frame h
    · exact absurd h.symm (hframe frame)
  · rw [hordinal, hawaiting]
    rcases mem_submit failure h with h | h
    · exact counted.worked ordinal counts h
    · exact absurd h.symm (hwork ordinal counts)
  · rw [hawaiting] at h
    obtain ⟨frame, hmem, heq⟩ := counted.awaiting h
    exact ⟨frame, mem_submit_of_mem failure hmem, hordinal ▸ heq⟩

theorem healthy_submit (healthy : Healthy s) (failure : s.failure = none) (event : CaptureEvent)
    (refused : Bool) : Healthy (submit s event refused) := by
  obtain ⟨-, -, -, hfinishing, hhealth, hactive, hsame⟩ := submit_fields failure event refused
  constructor
  · rw [hactive, hfinishing]
    exact healthy.active
  · intro health h
    rw [hhealth] at h
    have hdone := healthy.health health h
    rwa [hsame hdone.1]

structure Sound (s : Capture) : Prop where
  queued : Queued s
  counted : Counted s
  healthy : Healthy s

theorem sound_submit (sound : Sound s) (event : CaptureEvent) (h : Fits s.lost s.calls event)
    (hframe : ∀ frame, event ≠ .gpuiFrame frame)
    (hwork : ∀ ordinal counts, event ≠ .gpuiFrameWork ordinal counts) (refused : Bool) :
    Sound (submit s event refused) :=
  ⟨queued_submit sound.queued h refused,
    counted_submit sound.counted sound.queued.failure hframe hwork,
    healthy_submit sound.healthy sound.queued.failure event refused⟩

theorem sound_record (sound : Sound s) {call : RecorderCall} (callable : Callable s call) {detail : Detail}
    {refused : Bool} (h : record s detail refused call = some t) : Sound t := by
  have failure := sound.queued.failure
  cases call with
  | runStart id phase =>
    obtain rfl := Option.some.inj h
    exact sound_submit sound (.runStart id phase) callable nofun nofun refused
  | runEnd id outcome =>
    obtain rfl := Option.some.inj h
    exact sound_submit sound (.runEnd id outcome) trivial nofun nofun refused
  | step result =>
    obtain rfl := Option.some.inj h
    exact sound_submit sound (.step result) callable nofun nofun refused
  | cycle c =>
    obtain rfl := Option.some.inj h
    split
    · exact sound_submit sound (.cycle c) callable nofun nofun refused
    · exact sound
  | virtualListFrame startNs now origin listId =>
    dsimp only [record] at h
    split at h
    · obtain rfl := Option.some.inj h
      exact sound
    · obtain rfl := Option.some.inj h
      exact sound_submit sound (.virtualListFrame ⟨min startNs now, now, origin, listId⟩)
        ⟨callable, Nat.min_le_right _ _⟩ nofun nofun refused
  | gpuiFrame startNs now cycles work =>
    dsimp only [record] at h
    by_cases hactive : s.active = true
    · rw [if_neg (by simp [hactive])] at h
      obtain rfl := Option.some.inj h
      have hfinishing := sound.healthy.active hactive
      generalize hs : ({ s with frameOrdinal := s.frameOrdinal + 1, awaiting := true } : Capture) = counting
      generalize hframe : (⟨s.frameOrdinal, min startNs now, now, cycles, work⟩ : GpuiFrame) = frame
      have queued : Queued counting := by
        subst hs
        exact ⟨failure, sound.queued.counts, sound.queued.mirrors, sound.queued.fits, sound.queued.admitted,
          sound.queued.kept, sound.queued.drawn⟩
      have healthy : Healthy counting := by
        subst hs
        exact ⟨sound.healthy.active, sound.healthy.health⟩
      have fits : Fits counting.lost counting.calls (.gpuiFrame frame) := by
        subst hs hframe
        exact ⟨callable.1, Nat.min_le_right _ _, callable.2,
          fun other hother => (sound.counted.fresh other hother).ne⟩
      have hcalls : (submit counting (.gpuiFrame frame) refused).calls = s.calls ++ [.gpuiFrame frame] := by
        rw [(submit_fields queued.failure _ refused).1]
        subst hs
        exact if_neg (by simp [hfinishing])
      obtain ⟨-, hordinal, hawaiting, -⟩ := submit_fields queued.failure (.gpuiFrame frame) refused
      have hcounting : counting.frameOrdinal = s.frameOrdinal + 1 := by
        subst hs
        rfl
      refine ⟨queued_submit queued fits refused, ?_, healthy_submit healthy queued.failure _ refused⟩
      refine ⟨fun other hother => ?_, fun ordinal counts hwork => ?_, fun _ => ⟨frame, ?_, ?_⟩⟩
      · rw [hordinal, hcounting]
        rw [hcalls] at hother
        rcases List.mem_append.mp hother with hother | hother
        · exact Nat.lt_succ_of_lt (sound.counted.fresh other hother)
        · cases List.mem_singleton.mp hother
          subst hframe
          exact Nat.lt_succ_self _
      · rw [hordinal, hcounting]
        rw [hcalls] at hwork
        rcases List.mem_append.mp hwork with hwork | hwork
        · have hlt := (sound.counted.worked ordinal counts hwork).1
          exact ⟨Nat.lt_succ_of_lt hlt, fun _ => by omega⟩
        · cases List.mem_singleton.mp hwork
      · rw [hcalls]
        exact List.mem_append_right _ (List.mem_singleton.mpr rfl)
      · rw [hordinal, hcounting]
        subst hframe
        rfl
    · rw [if_pos (by simp [hactive])] at h
      obtain rfl := Option.some.inj h
      exact sound
  | gpuiFrameWork counts =>
    dsimp only [record] at h
    by_cases hactive : s.active = true
    · rw [if_neg (by simp [hactive])] at h
      obtain ⟨frame, hmem, heq⟩ := sound.counted.awaiting callable
      rw [if_neg (by omega)] at h
      obtain rfl := Option.some.inj h
      have hordinalEq : s.frameOrdinal - 1 = frame.ordinal := by omega
      rw [hordinalEq]
      generalize hs : ({ s with awaiting := false } : Capture) = counting
      have queued : Queued counting := by
        subst hs
        exact ⟨failure, sound.queued.counts, sound.queued.mirrors, sound.queued.fits, sound.queued.admitted,
          sound.queued.kept, sound.queued.drawn⟩
      have healthy : Healthy counting := by
        subst hs
        exact ⟨sound.healthy.active, sound.healthy.health⟩
      have fits : Fits counting.lost counting.calls (.gpuiFrameWork frame.ordinal counts) := by
        subst hs
        refine ⟨fun other hother => ?_, .inr ⟨frame, hmem, rfl⟩⟩
        exact (sound.counted.worked _ other hother).2 callable heq
      obtain ⟨-, hordinal, hawaiting, -⟩ := submit_fields queued.failure
        (.gpuiFrameWork frame.ordinal counts) refused
      have hcounting : counting.frameOrdinal = s.frameOrdinal ∧ counting.awaiting = false ∧
          counting.calls = s.calls := by
        subst hs
        exact ⟨rfl, rfl, rfl⟩
      refine ⟨queued_submit queued fits refused, ?_, healthy_submit healthy queued.failure _ refused⟩
      refine ⟨fun other hother => ?_, fun ordinal counts' hwork => ?_, fun hwait => ?_⟩
      · rw [hordinal, hcounting.1]
        rcases mem_submit queued.failure hother with hother | hother
        · rw [hcounting.2.2] at hother
          exact sound.counted.fresh other hother
        · cases hother
      · rw [hordinal, hcounting.1, hawaiting, hcounting.2.1]
        refine ⟨?_, nofun⟩
        rcases mem_submit queued.failure hwork with hwork | hwork
        · rw [hcounting.2.2] at hwork
          exact (sound.counted.worked ordinal counts' hwork).1
        · cases hwork
          omega
      · rw [hawaiting, hcounting.2.1] at hwait
        cases hwait
    · rw [if_pos (by simp [hactive])] at h
      obtain rfl := Option.some.inj h
      exact sound

theorem write_fields (h : write s = some t) : t.calls = s.calls ∧ t.frameOrdinal = s.frameOrdinal ∧
    t.awaiting = s.awaiting ∧ t.active = s.active ∧ t.finishing = s.finishing ∧ t.health = s.health ∧
      s.queue ≠ [] := by
  unfold write at h
  split at h
  · cases h
  · rename_i hqueue
    have hne : s.queue ≠ [] := by simp [hqueue]
    dsimp only at h
    split at h
    · obtain rfl := Option.some.inj h
      exact ⟨rfl, rfl, rfl, rfl, rfl, rfl, hne⟩
    · split at h <;> obtain rfl := Option.some.inj h
      · exact ⟨rfl, rfl, rfl, rfl, rfl, rfl, hne⟩
      · exact ⟨rfl, rfl, rfl, rfl, rfl, rfl, hne⟩

theorem sound_next (sound : Sound s) {e : CaptureStep} (permitted : Permitted s e) (linked : Linked s e)
    (h : next s config e = some t) : Sound t := by
  obtain ⟨queued, counted, healthy⟩ := sound
  cases e with
  | call call refused => exact sound_record ⟨queued, counted, healthy⟩ permitted h
  | write =>
    have hwrite : write s = some t := by
      rwa [next, if_neg (by simp [queued.failure])] at h
    obtain ⟨hcalls, hordinal, hawaiting, hactive, hfinishing, hhealth, hqueue⟩ := write_fields hwrite
    refine ⟨queued_write queued linked hwrite, ⟨?_, ?_, ?_⟩, ⟨?_, fun health hdone => ?_⟩⟩
    · rw [hcalls, hordinal]
      exact counted.fresh
    · rw [hcalls, hordinal, hawaiting]
      exact counted.worked
    · rw [hcalls, hordinal, hawaiting]
      exact counted.awaiting
    · rw [hactive, hfinishing]
      exact healthy.active
    · rw [hhealth] at hdone
      exact absurd (healthy.health health hdone).2.1 hqueue
  | commit limited =>
    rw [next, if_neg (by simp [queued.failure])] at h
    obtain rfl := Option.some.inj h
    exact ⟨⟨queued.failure, queued.counts, queued.mirrors, queued.fits, queued.admitted, queued.kept,
      queued.drawn⟩, ⟨counted.fresh, counted.worked, counted.awaiting⟩, ⟨healthy.active, healthy.health⟩⟩
  | finish =>
    obtain rfl := Option.some.inj h
    refine ⟨⟨queued.failure, queued.counts, queued.mirrors, queued.fits, queued.admitted, queued.kept,
      queued.drawn⟩, ⟨counted.fresh, counted.worked, counted.awaiting⟩, ⟨nofun, fun health hdone => ?_⟩⟩
    exact ⟨rfl, (healthy.health health hdone).2⟩
  | finalize =>
    dsimp only [next] at h
    split at h
    · cases h
    · rename_i hready
      rw [not_or, not_or, Bool.not_eq_false, not_not] at hready
      rw [if_pos queued.mirrors.whole] at h
      obtain rfl := Option.some.inj h
      refine ⟨⟨queued.failure, queued.counts, queued.mirrors, queued.fits, queued.admitted, queued.kept,
        queued.drawn⟩, ⟨counted.fresh, counted.worked, counted.awaiting⟩, ⟨healthy.active, ?_⟩⟩
      intro health hdone
      obtain rfl := Option.some.inj hdone
      refine ⟨hready.2.1, hready.2.2, ?_, fun homitted family => ?_⟩
      · have hcounts := queued.counts
        rw [hready.2.2, List.length_nil, Nat.add_zero] at hcounts
        exact hcounts.symm
      · have hlossy : (decide (s.omitted > 0) || s.outputLimited) = true := by
          rw [decide_eq_true (show s.omitted > 0 from homitted), Bool.true_or]
        dsimp only [healthOf]
        rw [hlossy]
        exact finalize_lossy s.db config family

theorem mirrors_empty : Mirrors .empty [] [] where
  runs _ := ⟨nofun, fun ⟨_, h⟩ => nomatch h⟩
  steps _ := ⟨nofun, fun ⟨_, h, _⟩ => nomatch h⟩
  cycles := nofun
  frames := nofun
  drawn := nofun
  frameWork := nofun
  whole := ⟨nofun, nofun, nofun, nofun, nofun, nofun, nofun, nofun, nofun, nofun, nofun⟩

theorem sound_start : Sound start where
  queued :=
    { failure := rfl
      counts := rfl
      mirrors := mirrors_empty
      fits := fun front event back h => absurd h (by simp [start])
      admitted := nofun
      kept := nofun
      drawn := nofun }
  counted := ⟨nofun, nofun, nofun⟩
  healthy := ⟨fun _ => rfl, nofun⟩

/-- As long as no owner work outlives its frame, the writer takes every event without an error,
finish succeeds, the health counts every event, and no family that may have lost one is complete. -/
theorem capacity_loss_never_fails
    (h : Reachable ((captureSystem config).restrict Linked) s) :
    s.failure = none ∧
      (s.finishing = true → s.queue = [] →
        ∃ t, next s config .finalize = some t ∧ t.failure = none ∧ t.health.isSome = true) ∧
      ∀ health, s.health = some health →
        health.rowsWritten + health.omittedEvents = s.calls.length ∧
          (0 < health.omittedEvents → ∀ family, health.statuses family ≠ .complete) := by
  have sound : Sound s := by
    refine reachable_invariant (S := (captureSystem config).restrict Linked) ?_ ?_ h
    · exact sound_start
    · rintro s e t sound ⟨linked, permitted, hnext⟩
      exact sound_next sound permitted linked hnext
  refine ⟨sound.queued.failure, fun hfinishing hqueue => ?_, fun health hhealth => ?_⟩
  · refine ⟨{ s with health := some (healthOf s config) }, ?_, sound.queued.failure, rfl⟩
    rw [next, if_neg (by simp [sound.queued.failure, hfinishing, hqueue]), if_pos sound.queued.mirrors.whole]
  · exact (sound.healthy.health health hhealth).2.2

end Invariants

section Examples

def testConfig : Config := ⟨.summary, false, false, false, true, true⟩

def noWork : NativeWork := ⟨fun _ => 0, fun _ => 0⟩

def painting (refused : Bool) : List CaptureStep :=
  [.call (.runStart 1 .interactive) false, .call (.gpuiFrame 0 1 [] noWork) refused]

def working (refused : Bool) : List CaptureStep :=
  painting refused ++ [.call (.gpuiFrameWork fun _ => 0) false, .write, .write]

def after (steps : List CaptureStep) : Capture :=
  steps.foldl (fun s e => (next s testConfig e).getD s) start

theorem painting_reachable (ok : Capture → CaptureStep → Prop)
    (hcall : ∀ s call refused, ok s (.call call refused)) (refused : Bool) :
    Reachable ((captureSystem testConfig).restrict ok) (after (painting refused)) := by
  have starts : ((captureSystem testConfig).restrict ok).Step start (.call (.runStart 1 .interactive) false)
      (after [.call (.runStart 1 .interactive) false]) := ⟨hcall _ _ _, nofun, rfl⟩
  have paints : ((captureSystem testConfig).restrict ok).Step (after [.call (.runStart 1 .interactive) false])
      (.call (.gpuiFrame 0 1 [] noWork) refused) (after (painting refused)) := by
    refine ⟨hcall _ _ _, ⟨⟨.interactive, List.mem_singleton.mpr rfl⟩, .nil⟩, ?_⟩
    cases refused <;> rfl
  exact reachable_step (reachable_step (reachable_initial _) starts) paints

/-- A refused frame without its owner's work does no harm. -/
theorem refused_frame_is_counted : (after (painting true)).failure = none :=
  (capacity_loss_never_fails (painting_reachable Linked (fun _ _ _ => trivial) true)).1

/-- The queue refuses the frame and admits its owner's work. -/
theorem owner_work_outlives_its_frame :
    ¬∀ s, Reachable (captureSystem testConfig) s → s.failure = none := by
  intro h
  let system := captureSystem testConfig
  have painted : Reachable system (after (painting true)) :=
    reachable_of_restrict (painting_reachable (fun _ _ => True) (fun _ _ _ => trivial) true)
  have works : system.Step (after (painting true)) (.call (.gpuiFrameWork fun _ => 0) false)
      (after (painting true ++ [.call (.gpuiFrameWork fun _ => 0) false])) := ⟨rfl, rfl⟩
  have writes : system.Step (after (painting true ++ [.call (.gpuiFrameWork fun _ => 0) false])) .write
      (after (painting true ++ [.call (.gpuiFrameWork fun _ => 0) false, .write])) := ⟨trivial, rfl⟩
  have fails : system.Step (after (painting true ++ [.call (.gpuiFrameWork fun _ => 0) false, .write])) .write
      (after (working true)) := ⟨trivial, rfl⟩
  have hnone := h _ (reachable_step (reachable_step (reachable_step painted works) writes) fails)
  exact absurd hnone (by decide)

end Examples

end CaptureRuns
