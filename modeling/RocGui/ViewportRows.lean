import Mathlib.Algebra.Ring.Nat
import Mathlib.Data.Fin.Basic
import Mathlib.Data.List.Chain
import Mathlib.Tactic.Common

/-! The viewport of a virtual list whose rows the application produces on demand: which rows are
mounted, what a drawn frame and a scroll request make of that. -/
namespace ViewportRows

abbrev U64 := Fin (2 ^ 64)

def maxU64 : ℕ := 2 ^ 64 - 1

def saturatingAdd (a b : ℕ) : ℕ := min (a + b) maxU64

/-- Where a requested row is placed in the viewport. -/
inductive Align where
  | start | center | «end»
  deriving DecidableEq, Repr

structure RowRange where
  start : ℕ
  stop : ℕ
  deriving DecidableEq, Repr

structure RowsEvent where
  refresh : Bool
  report : Bool
  rows : RowRange
  deriving DecidableEq, Repr

structure Viewport where
  rows : ℕ
  visible : RowRange
  applied : Option ℕ
  reported : Option RowRange
  pendingScroll : Option (ℕ × Align)
  deriving DecidableEq, Repr

namespace Viewport

def new (rows : ℕ) : Viewport := ⟨max rows 1, ⟨0, max rows 1⟩, none, none, none⟩

/-- Keep the visible rows inside a list that may have shrunk. -/
def clamp (v : Viewport) (count : ℕ) : Viewport :=
  let start := min v.visible.start (count - v.rows)
  { v with visible := ⟨start, min (saturatingAdd start v.rows) count⟩ }

/-- Where a request places its row; an alignment past the third moves the list as little as it can. -/
def placement (v : Viewport) (row align : ℕ) : Option Align :=
  match align with
  | 1 => some .start
  | 2 => some .center
  | 3 => some .end
  | _ =>
    if row < v.visible.start then some .start
    else if v.visible.stop ≤ row then some .end
    else none

def placedStart (v : Viewport) (row : ℕ) : Align → ℕ
  | .start => row
  | .center => row - v.rows / 2
  | .end => row + 1 - v.rows

/-- Apply a scroll request, once per serial. -/
def request (v : Viewport) (count row align serial : ℕ) : Viewport :=
  if align = 0 ∨ v.applied = some serial then v
  else
    let v := { v with applied := some serial }
    if count = 0 then v
    else
      let row := min row (count - 1)
      match v.placement row align with
      | none => v
      | some placed =>
        let start := min (v.placedStart row placed) (count - v.rows)
        { v with
          visible := ⟨start, min (saturatingAdd start v.rows) count⟩
          pendingScroll := some (row, placed) }

/-- The visible rows and one viewport either side. -/
def window (v : Viewport) (count : ℕ) : RowRange :=
  let start := v.visible.start - v.rows
  let stop := min (saturatingAdd v.visible.stop v.rows) count
  ⟨min start stop, stop⟩

/-- Record the rows that were drawn, and what the list's route must hear. -/
def observe (v : Viewport) (visible : RowRange) (count : ℕ) (mounted : RowRange) (notify : Bool) :
    Viewport × Option RowsEvent :=
  if v.pendingScroll.isSome then (v, none)
  else
    let rows := max (visible.stop - visible.start) 1
    let guard := max (rows / 2) 1
    let refresh : Bool := (0 < mounted.start ∧ visible.start < saturatingAdd mounted.start guard) ∨
      (mounted.stop < count ∧ mounted.stop < saturatingAdd visible.stop guard)
    let report := notify && v.reported ≠ some visible
    ({ v with
        rows := rows
        visible := visible
        reported := if report then some visible else v.reported },
      if refresh || report then some ⟨refresh, report, visible⟩ else none)

end Viewport

structure Drawn where
  start : U64
  stop : U64
  ordered : start ≤ stop
  deriving DecidableEq, Repr

def Drawn.range (d : Drawn) : RowRange := ⟨d.start, d.stop⟩

inductive Call where
  | window (count estimate row : U64) (align : ℕ) (serial : U64)
  | observe (visible : Drawn) (count : U64) (mounted : RowRange) (notify : Bool)
  | takePendingScroll
  | request (count row : U64) (align : ℕ) (serial : U64)
  | clamp (count : U64)

def RowRange.cut (r : RowRange) (count : ℕ) : RowRange := ⟨min r.start count, min r.stop count⟩

/-- A viewport with its history: `shown` is the range last recorded, or the one where a scroll request
placed the list since, cut to the counts since. A frame drawn while a request waits is not recorded.
`asked` and `served` list the serials of the requests made and of those applied. -/
structure Tracked where
  viewport : Viewport
  shown : RowRange
  asked : List ℕ
  served : List ℕ
  deriving DecidableEq, Repr

namespace Tracked

def new (estimate : ℕ) : Tracked := ⟨.new estimate, (Viewport.new estimate).visible, [], []⟩

def clamp (t : Tracked) (count : ℕ) : Tracked :=
  { t with viewport := t.viewport.clamp count, shown := t.shown.cut count }

def request (t : Tracked) (count row align serial : ℕ) : Tracked :=
  let next := t.viewport.request count row align serial
  { viewport := next
    shown := if next.visible = t.viewport.visible then t.shown else next.visible
    asked := if align = 0 then t.asked else t.asked ++ [serial]
    served := if align = 0 ∨ t.viewport.applied = some serial then t.served else t.served ++ [serial] }

def observe (t : Tracked) (visible : RowRange) (count : ℕ) (mounted : RowRange) (notify : Bool) : Tracked :=
  { t with
    viewport := (t.viewport.observe visible count mounted notify).1
    shown := if t.viewport.pendingScroll.isSome then t.shown else visible }

end Tracked

/-- A list has a viewport from the first window on. -/
def step (s : Option Tracked) : Call → Option Tracked
  | .window count estimate row align serial =>
    some (((s.getD (.new estimate)).clamp count).request count row align serial)
  | .observe visible count mounted notify => s.map (·.observe visible.range count mounted notify)
  | .takePendingScroll => s.map fun t => { t with viewport := { t.viewport with pendingScroll := none } }
  | .request count row align serial => s.map (·.request count row align serial)
  | .clamp count => s.map (·.clamp count)

def run (calls : List Call) : Option Tracked := calls.foldl step none

/-- Each request repeats the serial of the one before it, or has one that none had before. -/
def Renewed (asked : List ℕ) : Prop :=
  ∀ front serial back, asked = front ++ serial :: back → serial ∈ front → front.getLast? = some serial

theorem renewed_front {asked : List ℕ} {serial : ℕ} (h : Renewed (asked ++ [serial])) :
    Renewed asked ∧ (serial ∈ asked → asked.getLast? = some serial) := by
  refine ⟨fun front x back heq => h front x (back ++ [serial]) ?_, h asked serial [] rfl⟩
  rw [heq, List.append_assoc, List.cons_append]

section Invariant

variable {t : Tracked} {count row align serial : ℕ}

structure Counted (t : Tracked) : Prop where
  answered : ∀ x, x ∈ t.asked ↔ x ∈ t.served
  once : Renewed t.asked → t.served.Nodup
  latest : t.asked.getLast? = t.viewport.applied

/-- What every call keeps: the rows shown are inside the visible ones, which are at most one viewport. -/
structure Fits (t : Tracked) : Prop extends Counted t where
  rows : 1 ≤ t.viewport.rows
  bounded : t.viewport.visible.stop ≤ maxU64
  span : t.viewport.visible.stop ≤ t.viewport.visible.start + t.viewport.rows
  first : t.viewport.visible.start ≤ t.shown.start
  last : t.shown.stop ≤ t.viewport.visible.stop
  ordered : t.shown.start ≤ t.shown.stop

theorem fits_new (estimate : U64) : Fits (.new estimate) := by
  have hestimate := estimate.isLt
  constructor
  · exact ⟨fun _ => Iff.rfl, fun _ => List.nodup_nil, rfl⟩
  · exact Nat.le_max_right _ _
  · simp only [Tracked.new, Viewport.new, maxU64]
    omega
  · simp only [Tracked.new, Viewport.new]
    omega
  · exact Nat.le_refl _
  · exact Nat.le_refl _
  · exact Nat.zero_le _

theorem fits_clamp (h : Fits t) (count : ℕ) (hcount : count ≤ maxU64) : Fits (t.clamp count) := by
  obtain ⟨counted, rows, bounded, span, first, last, ordered⟩ := h
  constructor
  · exact ⟨counted.answered, counted.once, counted.latest⟩
  · exact rows
  · simp only [Tracked.clamp, Viewport.clamp]
    omega
  · simp only [Tracked.clamp, Viewport.clamp, saturatingAdd]
    omega
  · simp only [Tracked.clamp, Viewport.clamp, RowRange.cut]
    omega
  · simp only [Tracked.clamp, Viewport.clamp, RowRange.cut, saturatingAdd]
    omega
  · simp only [Tracked.clamp, RowRange.cut]
    omega

theorem request_cases (v : Viewport) (count row align serial : ℕ) :
    ((align = 0 ∨ v.applied = some serial) ∧ v.request count row align serial = v) ∨
    (¬(align = 0 ∨ v.applied = some serial) ∧ (v.request count row align serial).applied = some serial ∧
      (v.request count row align serial).rows = v.rows ∧
      ((v.request count row align serial).visible = v.visible ∨ ∃ start ≤ count - v.rows, 0 < count ∧
        (v.request count row align serial).visible = ⟨start, min (saturatingAdd start v.rows) count⟩)) := by
  unfold Viewport.request
  by_cases hheld : align = 0 ∨ v.applied = some serial
  · exact .inl ⟨hheld, if_pos hheld⟩
  · right
    rw [if_neg hheld]
    dsimp only
    by_cases hcount : count = 0
    · rw [if_pos hcount]
      exact ⟨hheld, rfl, rfl, .inl rfl⟩
    · rw [if_neg hcount]
      split
      · exact ⟨hheld, rfl, rfl, .inl rfl⟩
      · exact ⟨hheld, rfl, rfl, .inr ⟨_, Nat.min_le_right _ _, by omega, rfl⟩⟩

theorem counted_request (h : Counted t) (count row align serial : ℕ) :
    Counted (t.request count row align serial) := by
  by_cases halign : align = 0
  · subst halign
    exact ⟨h.answered, h.once, h.latest⟩
  unfold Tracked.request
  rw [if_neg halign]
  rcases request_cases t.viewport count row align serial with ⟨hheld, hsame⟩ | ⟨hnew, happlied, -⟩
  · have hlast := hheld.resolve_left halign
    have hmem : serial ∈ t.asked := List.mem_of_getLast? (h.latest.trans hlast)
    rw [hsame, if_pos hheld]
    constructor
    · intro x
      dsimp only
      rw [List.mem_append, List.mem_singleton, ← h.answered]
      exact or_iff_left_of_imp fun heq => heq ▸ hmem
    · exact fun renewed => h.once (renewed_front renewed).1
    · exact List.getLast?_concat.trans hlast.symm
  · rw [if_neg hnew]
    constructor
    · intro x
      dsimp only
      rw [List.mem_append, List.mem_append, h.answered]
    · intro renewed
      obtain ⟨front, repeated⟩ := renewed_front renewed
      have fresh : serial ∉ t.served := by
        intro hmem
        have hlast := repeated ((h.answered serial).mpr hmem)
        exact hnew (.inr (h.latest.symm.trans hlast))
      refine List.nodup_append.mpr ⟨h.once front, List.pairwise_singleton _ _, fun x hx y hy heq => ?_⟩
      obtain rfl := List.mem_singleton.mp hy
      exact fresh (heq ▸ hx)
    · exact List.getLast?_concat.trans happlied.symm

theorem fits_request (h : Fits t) (count row align serial : ℕ) (hcount : count ≤ maxU64) :
    Fits (t.request count row align serial) := by
  have counted := counted_request h.toCounted count row align serial
  obtain ⟨-, rows, bounded, span, first, last, ordered⟩ := h
  unfold Tracked.request at counted ⊢
  dsimp only at counted ⊢
  rcases request_cases t.viewport count row align serial with ⟨hheld, hsame⟩ | ⟨hnew, happlied, hrows, hplaced⟩
  · rw [hsame, if_pos rfl] at counted ⊢
    exact ⟨counted, rows, bounded, span, first, last, ordered⟩
  rcases hplaced with hsame | ⟨start, hstart, hpositive, hvisible⟩
  · rw [if_pos hsame] at counted ⊢
    refine ⟨counted, hrows ▸ rows, hsame ▸ bounded, ?_, hsame ▸ first, hsame ▸ last, ordered⟩
    simp only [hsame, hrows]
    exact span
  · by_cases hsame : (t.viewport.request count row align serial).visible = t.viewport.visible
    · rw [if_pos hsame] at counted ⊢
      refine ⟨counted, hrows ▸ rows, hsame ▸ bounded, ?_, hsame ▸ first, hsame ▸ last, ordered⟩
      simp only [hsame, hrows]
      exact span
    · rw [if_neg hsame] at counted ⊢
      refine ⟨counted, hrows ▸ rows, ?_, ?_, Nat.le_refl _, Nat.le_refl _, ?_⟩
      · simp only [hvisible]
        omega
      · simp only [hvisible, hrows, saturatingAdd]
        omega
      · simp only [hvisible, saturatingAdd]
        omega

theorem fits_observe (h : Fits t) (visible : Drawn) (count : ℕ) (mounted : RowRange) (notify : Bool) :
    Fits (t.observe visible.range count mounted notify) := by
  unfold Tracked.observe Viewport.observe
  by_cases hpending : t.viewport.pendingScroll.isSome
  · simp only [if_pos hpending]
    exact h
  · have hordered := visible.ordered
    have hstop := visible.stop.isLt
    simp only [if_neg hpending]
    constructor
    · exact ⟨h.answered, h.once, h.latest⟩
    · exact Nat.le_max_right _ _
    · simp only [Drawn.range, maxU64]
      omega
    · simp only [Drawn.range]
      omega
    · exact Nat.le_refl _
    · exact Nat.le_refl _
    · exact hordered

theorem u64_le (n : U64) : (n : ℕ) ≤ maxU64 := Nat.le_sub_one_of_lt n.isLt

theorem fits_step {s s' : Option Tracked} (h : ∀ t, s = some t → Fits t) (call : Call)
    (hs' : s' = step s call) : ∀ t, s' = some t → Fits t := by
  rintro t rfl
  cases call with
  | window count estimate row align serial =>
    obtain rfl := Option.some.inj hs'
    have start : Fits (s.getD (.new estimate)) := by
      cases s with
      | none => exact fits_new estimate
      | some t => exact h t rfl
    exact fits_request (fits_clamp start count (u64_le count)) _ _ _ _ (u64_le count)
  | observe visible count mounted notify =>
    obtain ⟨t', rfl, rfl⟩ := Option.map_eq_some_iff.mp hs'.symm
    exact fits_observe (h t' rfl) _ _ _ _
  | takePendingScroll =>
    obtain ⟨t', rfl, rfl⟩ := Option.map_eq_some_iff.mp hs'.symm
    obtain ⟨counted, rows, bounded, span, first, last, ordered⟩ := h t' rfl
    exact ⟨⟨counted.answered, counted.once, counted.latest⟩, rows, bounded, span, first, last, ordered⟩
  | request count row align serial =>
    obtain ⟨t', rfl, rfl⟩ := Option.map_eq_some_iff.mp hs'.symm
    exact fits_request (h t' rfl) _ _ _ _ (u64_le count)
  | clamp count =>
    obtain ⟨t', rfl, rfl⟩ := Option.map_eq_some_iff.mp hs'.symm
    exact fits_clamp (h t' rfl) count (u64_le count)

theorem fits_run (calls : List Call) : ∀ t, run calls = some t → Fits t := by
  have all (s : Option Tracked) (h : ∀ t, s = some t → Fits t) : ∀ t, calls.foldl step s = some t → Fits t := by
    induction calls generalizing s with
    | nil => exact h
    | cons call rest ih => exact ih (step s call) (fits_step h call rfl)
  exact all none nofun

end Invariant

section Windows

variable {t : Tracked} {count row align serial : ℕ}

/-- The list is not past its end: what is visible and what is shown end with it. -/
def Inside (t : Tracked) (count : ℕ) : Prop :=
  t.viewport.visible.start ≤ count - t.viewport.rows ∧
    t.viewport.visible.stop = min (saturatingAdd t.viewport.visible.start t.viewport.rows) count

theorem inside_clamp (t : Tracked) (count : ℕ) : Inside (t.clamp count) count :=
  ⟨Nat.min_le_right _ _, rfl⟩

theorem inside_request (h : Inside t count) (row align serial : ℕ) :
    Inside (t.request count row align serial) count := by
  unfold Tracked.request Inside
  rcases request_cases t.viewport count row align serial with ⟨-, hsame⟩ | ⟨-, -, hrows, hplaced⟩
  · rw [hsame]
    exact h
  · rcases hplaced with hsame | ⟨start, hstart, -, hvisible⟩
    · rw [hsame, hrows]
      exact h
    · rw [hvisible, hrows]
      exact ⟨hstart, rfl⟩

/-- The window of a list lies inside it and covers what the list shows. -/
theorem window_covers (h : Fits t) (inside : Inside t count) :
    (t.viewport.window count).start ≤ (t.viewport.window count).stop ∧
    (t.viewport.window count).stop ≤ count ∧
    (t.viewport.window count).start ≤ t.shown.start ∧ t.shown.stop ≤ (t.viewport.window count).stop := by
  obtain ⟨-, rows, bounded, span, first, last, ordered⟩ := h
  obtain ⟨-, hstop⟩ := inside
  simp only [Viewport.window, saturatingAdd] at *
  refine ⟨Nat.min_le_right _ _, Nat.min_le_right _ _, ?_, ?_⟩ <;> omega

theorem window_settled (h : Fits t) (inside : Inside t count) (hcount : count ≤ maxU64) (notify : Bool)
    (event : RowsEvent)
    (heard : (t.viewport.observe t.shown count (t.viewport.window count) notify).2 = some event) :
    event.refresh = false := by
  obtain ⟨-, rows, bounded, span, first, last, ordered⟩ := h
  obtain ⟨hstart, hstop⟩ := inside
  unfold Viewport.observe at heard
  split at heard
  · cases heard
  · dsimp only at heard
    have guard : max (max (t.shown.stop - t.shown.start) 1 / 2) 1 ≤ t.viewport.rows := by omega
    generalize max (max (t.shown.stop - t.shown.start) 1 / 2) 1 = g at guard heard
    have leading : ¬(0 < (t.viewport.window count).start ∧
        t.shown.start < saturatingAdd (t.viewport.window count).start g) := by
      simp only [Viewport.window, saturatingAdd]
      omega
    have trailing : ¬((t.viewport.window count).stop < count ∧
        (t.viewport.window count).stop < saturatingAdd t.shown.stop g) := by
      simp only [Viewport.window, saturatingAdd] at *
      omega
    split at heard
    · obtain rfl := Option.some.inj heard
      simp only [leading, trailing, or_self, decide_false]
    · cases heard

theorem request_shows (v : Viewport) (hrows : 1 ≤ v.rows) (hcount : 0 < count) (hmax : count ≤ maxU64)
    (halign : align ≠ 0) (hnew : v.applied ≠ some serial) :
    (v.request count row align serial).visible.start ≤ min row (count - 1) ∧
      min row (count - 1) < (v.request count row align serial).visible.stop := by
  have hheld : ¬(align = 0 ∨ v.applied = some serial) := fun h => h.elim halign hnew
  unfold Viewport.request
  rw [if_neg hheld]
  dsimp only
  rw [if_neg (Nat.ne_of_gt hcount)]
  generalize hrow : min row (count - 1) = r
  have hlt : r < count := by omega
  split
  · rename_i hnone
    unfold Viewport.placement at hnone
    split at hnone
    · cases hnone
    · cases hnone
    · cases hnone
    · split at hnone
      · cases hnone
      · split at hnone
        · cases hnone
        · dsimp only at *
          omega
  · rename_i placed hplaced
    cases placed <;> simp only [Viewport.placedStart, saturatingAdd] <;> omega

end Windows

def lastObserved (calls : List Call) : Option RowRange :=
  calls.foldl (fun last call => match call with
    | .observe visible .. => some visible.range
    | _ => last) none

end ViewportRows
