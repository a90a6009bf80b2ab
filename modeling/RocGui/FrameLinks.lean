import RocGui.CaptureEvents
import RocGui.Transitions
import Mathlib.Data.List.Flatten
import Mathlib.Data.List.Nodup
import Mathlib.Data.List.Perm.Basic

/-! Which frame is the first to draw which cycles, and the list passes that wait for the cycle
their patch belongs to. -/
namespace FrameLinks

open CaptureEvents Transitions

structure FrameDraw where
  draw : ℕ
  startNs : ℕ
  cycles : List ℕ

structure Links where
  applied : List ℕ
  nextDraw : ℕ
  drawing : Option ℕ
  lastPainted : Option (ℕ × ℕ)
  deferredPasses : List (ℕ × ListPass)

structure Recording where
  links : Links
  active : Bool
  detail : Detail
  frameOrdinal : ℕ
  /-- The draws that are begun and not ended, in the order they were begun. -/
  draws : List FrameDraw
  /-- The events that `submit` was called with, in that order. -/
  submitted : List CaptureEvent
  /-- The ordinals that were noted while recording, in that order. -/
  noted : List ℕ
  /-- The frames that were painted while recording, each with its draw. -/
  painted : List (ℕ × GpuiFrame)
  /-- The ordinals that went with frames painted after recording stopped. -/
  dropped : List ℕ
  /-- The passes that were deferred, each to a cycle. -/
  deferred : List (ℕ × ListPass)

inductive LinkEvent where
  | noteCycleApplied (ordinal : ℕ)
  | beginFrameDraw (now : ℕ)
  /-- The draw at a position among the unfinished ones. -/
  | abandonFrameDraw (position : ℕ)
  | gpuiFrame (position now : ℕ) (work : NativeWork)
  | virtualListFrame (startNs now : ℕ) (origin : ListPassOrigin) (listId : ℕ)
  | cycle (cycle : Cycle)
  /-- The recorder finishes, or its writer is gone. -/
  | deactivate

section Calls

variable (s : Recording)

/-- A call of `submit`. It is only logged: whether a recorder is there to take the event, and
whether a full queue refuses it, is left out here. -/
def submit (event : CaptureEvent) : Recording := { s with submitted := s.submitted ++ [event] }

def noteCycleApplied (ordinal : ℕ) : Recording :=
  if !s.active then s
  else
    { s with
      links := { s.links with applied := s.links.applied ++ [ordinal] }
      noted := s.noted ++ [ordinal] }

def beginFrameDraw (now : ℕ) : Recording :=
  let draw := s.links.nextDraw
  { s with
    links := { s.links with nextDraw := draw + 1, drawing := some draw, applied := [] }
    draws := s.draws ++ [⟨draw, now, s.links.applied⟩] }

def endDraw (links : Links) (draw : ℕ) : Links :=
  { links with drawing := if links.drawing = some draw then none else links.drawing }

def abandonFrameDraw (position : ℕ) (frame : FrameDraw) : Recording :=
  { s with
    links := { endDraw s.links frame.draw with applied := frame.cycles ++ s.links.applied }
    draws := s.draws.eraseIdx position }

/-- `None` without a draw, or for one that was not the last painted. -/
def paintedFrame (draw : Option ℕ) : Option ℕ :=
  draw.bind fun draw =>
    (s.links.lastPainted.filter fun (painted, _) => painted = draw).map Prod.snd

def gpuiFrame (position : ℕ) (frame : FrameDraw) (now : ℕ) (work : NativeWork) : Recording :=
  let s := { s with draws := s.draws.eraseIdx position }
  if !s.active then { s with dropped := s.dropped ++ frame.cycles }
  else
    let ordinal := s.frameOrdinal
    let row : GpuiFrame := ⟨ordinal, min frame.startNs now, now, frame.cycles, work⟩
    submit { s with
      frameOrdinal := ordinal + 1
      links := { endDraw s.links frame.draw with lastPainted := some (frame.draw, ordinal) }
      painted := s.painted ++ [(frame.draw, row)] } (.gpuiFrame row)

/-- A pass of a cycle's patch waits for that cycle. -/
def virtualListFrame (startNs now : ℕ) (origin : ListPassOrigin) (listId : ℕ) : Recording :=
  if !s.active then s
  else
    let pass : ListPass := ⟨min startNs now, now, origin, listId⟩
    match origin with
    | .patch (some cycle) =>
      { s with
        links := { s.links with deferredPasses := s.links.deferredPasses ++ [(cycle, pass)] }
        deferred := s.deferred ++ [(cycle, pass)] }
    | _ => submit s (.virtualListFrame pass)

def ownPasses (ordinal : ℕ) : List (ℕ × ListPass) :=
  s.links.deferredPasses.filter fun (owner, _) => owner = ordinal

def submitCycle (c : Cycle) : Recording :=
  if s.detail.recordsCycle c.measurementPhase then submit s (.cycle c) else s

def cycle (c : Cycle) : Recording :=
  let s := submitCycle s c
  let passes := ownPasses s c.ordinal
  { s with
    links := { s.links with
      deferredPasses := s.links.deferredPasses.filter fun (owner, _) => owner ≠ c.ordinal }
    submitted := s.submitted ++ passes.map fun (_, pass) => .virtualListFrame pass }

def next (s : Recording) : LinkEvent → Option Recording
  | .noteCycleApplied ordinal => some (noteCycleApplied s ordinal)
  | .beginFrameDraw now => some (beginFrameDraw s now)
  | .abandonFrameDraw position => s.draws[position]?.map (abandonFrameDraw s position)
  | .gpuiFrame position now work =>
    s.draws[position]?.map fun frame => gpuiFrame s position frame now work
  | .virtualListFrame startNs now origin listId => some (virtualListFrame s startNs now origin listId)
  | .cycle c => some (cycle s c)
  | .deactivate => some { s with active := false }

end Calls

def start (detail : Detail) : Recording where
  links := ⟨[], 0, none, none, []⟩
  active := true
  detail := detail
  frameOrdinal := 0
  draws := []
  submitted := []
  noted := []
  painted := []
  dropped := []
  deferred := []

def linkSystem (detail : Detail) : System Recording LinkEvent where
  initial := start detail
  Step s e t := next s e = some t

section Conditions

variable (s : Recording)

/-- The draws begun after the one that is abandoned hold no cycles. -/
def NewestFirst (s : Recording) : LinkEvent → Prop
  | .abandonFrameDraw position => ∀ frame ∈ s.draws.drop (position + 1), frame.cycles = []
  | _ => True

def OldestFirst (_ : Recording) : LinkEvent → Prop
  | .abandonFrameDraw position => position = 0
  | _ => True

/-- A pass that is submitted for the cycle of its patch. -/
def patchPass : CaptureEvent → Option (ℕ × ListPass)
  | .virtualListFrame pass => match pass.origin with
    | .patch (some cycle) => some (cycle, pass)
    | _ => none
  | _ => none

def frameRow : CaptureEvent → Option GpuiFrame
  | .gpuiFrame row => some row
  | _ => none

def held : List ℕ := s.draws.flatMap FrameDraw.cycles

def attributed : List ℕ := s.painted.flatMap fun (_, row) => row.cycles

/-- The ordinals are at their places, each as often as it was noted. -/
def Placed : Prop := s.noted.Perm (s.links.applied ++ held s ++ attributed s ++ s.dropped)

structure Drawn (s : Recording) : Prop where
  fresh : ∀ draw ∈ s.draws.map FrameDraw.draw ++ s.painted.map Prod.fst, draw < s.links.nextDraw
  nodup : (s.draws.map FrameDraw.draw ++ s.painted.map Prod.fst).Nodup
  last : s.links.lastPainted = s.painted.getLast?.map fun (draw, row) => (draw, row.ordinal)
  rows : s.submitted.filterMap frameRow = s.painted.map Prod.snd

structure Deferred (s : Recording) : Prop where
  own : ∀ pass ∈ s.links.deferredPasses, pass.2.origin = .patch (some pass.1)
  once : s.deferred.Perm (s.links.deferredPasses ++ s.submitted.filterMap patchPass)

end Conditions

section Steps

variable {s t : Recording} {e : LinkEvent} {frame : FrameDraw} {position : ℕ}

theorem perm_eraseIdx {α : Type} {xs : List α} {x : α} {i : ℕ} (h : xs[i]? = some x) :
    xs.Perm (x :: xs.eraseIdx i) := by
  obtain ⟨hi, rfl⟩ := List.getElem?_eq_some_iff.mp h
  exact (List.getElem_cons_eraseIdx_perm hi).symm

theorem held_eraseIdx (h : s.draws[position]? = some frame) :
    (held s).Perm (frame.cycles ++ (s.draws.eraseIdx position).flatMap FrameDraw.cycles) := by
  have hperm := (perm_eraseIdx h).flatMap_right FrameDraw.cycles
  rwa [List.flatMap_cons] at hperm

theorem submitCycle_fields (s : Recording) (c : Cycle) :
    (submitCycle s c).links = s.links ∧ (submitCycle s c).draws = s.draws ∧
      (submitCycle s c).noted = s.noted ∧ (submitCycle s c).painted = s.painted ∧
        (submitCycle s c).dropped = s.dropped ∧ (submitCycle s c).deferred = s.deferred := by
  unfold submitCycle
  split <;> exact ⟨rfl, rfl, rfl, rfl, rfl, rfl⟩

/-- No ordinal is lost, and none is in two places. -/
theorem placed_next (placed : Placed s) (h : next s e = some t) : Placed t := by
  cases e with
  | noteCycleApplied ordinal =>
    obtain rfl := Option.some.inj h
    unfold noteCycleApplied
    split
    · exact placed
    · have hplaced := List.perm_iff_count.mp placed
      change (s.noted ++ [ordinal]).Perm
        (s.links.applied ++ [ordinal] ++ held s ++ attributed s ++ s.dropped)
      rw [List.perm_iff_count]
      intro x
      have hx := hplaced x
      simp only [List.count_append] at hx ⊢
      omega
  | beginFrameDraw now =>
    obtain rfl := Option.some.inj h
    unfold Placed at placed ⊢
    refine placed.trans ?_
    simp only [beginFrameDraw, held, attributed, List.flatMap_append, List.flatMap_cons, List.flatMap_nil,
      List.append_nil, List.nil_append]
    exact ((List.perm_append_comm).append_right _).append_right _
  | abandonFrameDraw position =>
    obtain ⟨frame, hframe, rfl⟩ := Option.map_eq_some_iff.mp h
    unfold Placed at placed ⊢
    refine placed.trans ((List.Perm.append_right _ ?_).append_right _)
    change (s.links.applied ++ held s).Perm (frame.cycles ++ s.links.applied ++
      (s.draws.eraseIdx position).flatMap FrameDraw.cycles)
    refine ((held_eraseIdx hframe).append_left _).trans ?_
    rw [← List.append_assoc]
    exact (List.perm_append_comm).append_right _
  | gpuiFrame position now work =>
    obtain ⟨frame, hframe, rfl⟩ := Option.map_eq_some_iff.mp h
    have hplaced := List.perm_iff_count.mp placed
    have herased := List.perm_iff_count.mp (held_eraseIdx hframe)
    unfold gpuiFrame
    dsimp only
    split
    · change s.noted.Perm (s.links.applied ++ (s.draws.eraseIdx position).flatMap FrameDraw.cycles ++
        attributed s ++ (s.dropped ++ frame.cycles))
      rw [List.perm_iff_count]
      intro x
      have hx := hplaced x
      have hheld := herased x
      simp only [List.count_append] at hx hheld ⊢
      omega
    · change s.noted.Perm (s.links.applied ++ (s.draws.eraseIdx position).flatMap FrameDraw.cycles ++
        (s.painted ++ [(frame.draw, _)]).flatMap (fun ((_, row) : ℕ × GpuiFrame) => row.cycles) ++
          s.dropped)
      rw [List.perm_iff_count]
      intro x
      have hx := hplaced x
      have hheld := herased x
      simp only [List.flatMap_append, List.flatMap_cons, List.flatMap_nil, List.append_nil,
        List.count_append, attributed] at hx hheld ⊢
      omega
  | virtualListFrame startNs now origin listId =>
    obtain rfl := Option.some.inj h
    unfold virtualListFrame
    split
    · exact placed
    · dsimp only
      split <;> exact placed
  | cycle c =>
    obtain rfl := Option.some.inj h
    obtain ⟨hlinks, hdraws, hnoted, hpainted, hdropped, -⟩ := submitCycle_fields s c
    unfold Placed held attributed cycle
    dsimp only
    rw [hlinks, hdraws, hnoted, hpainted, hdropped]
    exact placed
  | deactivate =>
    obtain rfl := Option.some.inj h
    exact placed

theorem frame_events_cycle (s : Recording) (c : Cycle) :
    (cycle s c).submitted.filterMap frameRow = s.submitted.filterMap frameRow := by
  have hpasses (passes : List (ℕ × ListPass)) :
      (passes.map fun (_, pass) => CaptureEvent.virtualListFrame pass).filterMap frameRow = [] := by
    rw [List.filterMap_map]
    exact List.filterMap_eq_nil_iff.mpr fun _ _ => rfl
  unfold cycle submitCycle
  dsimp only
  rw [List.filterMap_append, hpasses, List.append_nil]
  split
  · rw [submit, List.filterMap_append]
    exact List.append_nil _
  · rfl

theorem drawn_next (drawn : Drawn s) (h : next s e = some t) : Drawn t := by
  cases e with
  | noteCycleApplied ordinal =>
    obtain rfl := Option.some.inj h
    unfold noteCycleApplied
    split
    · exact drawn
    · exact ⟨drawn.fresh, drawn.nodup, drawn.last, drawn.rows⟩
  | beginFrameDraw now =>
    obtain rfl := Option.some.inj h
    have hdraws : (s.draws ++ [(⟨s.links.nextDraw, now, s.links.applied⟩ : FrameDraw)]).map FrameDraw.draw ++
        s.painted.map Prod.fst = s.draws.map FrameDraw.draw ++
          s.links.nextDraw :: s.painted.map Prod.fst := by simp
    refine ⟨?_, ?_, drawn.last, drawn.rows⟩
    · intro draw hdraw
      change draw ∈ (s.draws ++ [_]).map FrameDraw.draw ++ s.painted.map Prod.fst at hdraw
      rw [hdraws, List.mem_append, List.mem_cons] at hdraw
      have fresh := drawn.fresh draw
      rw [List.mem_append] at fresh
      change draw < s.links.nextDraw + 1
      rcases hdraw with hdraw | rfl | hdraw
      · exact Nat.lt_succ_of_lt (fresh (.inl hdraw))
      · exact Nat.lt_succ_self _
      · exact Nat.lt_succ_of_lt (fresh (.inr hdraw))
    · change ((s.draws ++ [_]).map FrameDraw.draw ++ s.painted.map Prod.fst).Nodup
      rw [hdraws, List.perm_middle.nodup_iff]
      refine List.nodup_cons.mpr ⟨fun hmem => ?_, drawn.nodup⟩
      exact Nat.lt_irrefl _ (drawn.fresh _ hmem)
  | abandonFrameDraw position =>
    obtain ⟨frame, hframe, rfl⟩ := Option.map_eq_some_iff.mp h
    have hsub : ((s.draws.eraseIdx position).map FrameDraw.draw ++ s.painted.map Prod.fst).Sublist
        (s.draws.map FrameDraw.draw ++ s.painted.map Prod.fst) :=
      (((List.eraseIdx_sublist s.draws position).map FrameDraw.draw).append_right _)
    exact ⟨fun draw hdraw => drawn.fresh draw (hsub.subset hdraw), drawn.nodup.sublist hsub, drawn.last,
      drawn.rows⟩
  | gpuiFrame position now work =>
    obtain ⟨frame, hframe, rfl⟩ := Option.map_eq_some_iff.mp h
    unfold gpuiFrame
    dsimp only
    split
    · have hsub : ((s.draws.eraseIdx position).map FrameDraw.draw ++ s.painted.map Prod.fst).Sublist
          (s.draws.map FrameDraw.draw ++ s.painted.map Prod.fst) :=
        (((List.eraseIdx_sublist s.draws position).map FrameDraw.draw).append_right _)
      exact ⟨fun draw hdraw => drawn.fresh draw (hsub.subset hdraw), drawn.nodup.sublist hsub, drawn.last,
        drawn.rows⟩
    · -- the draw moves from the unfinished ones to the painted ones
      have hperm : ((s.draws.eraseIdx position).map FrameDraw.draw ++ (s.painted.map Prod.fst ++ [frame.draw])).Perm
          (s.draws.map FrameDraw.draw ++ s.painted.map Prod.fst) := by
        have hdraws := (perm_eraseIdx hframe).map FrameDraw.draw
        refine List.Perm.trans ?_ (hdraws.symm.append_right _)
        rw [← List.append_assoc]
        exact List.perm_append_comm
      have hpainted {row : GpuiFrame} : (s.painted ++ [(frame.draw, row)]).map Prod.fst =
          s.painted.map Prod.fst ++ [frame.draw] := by simp
      refine ⟨?_, ?_, ?_, ?_⟩
      · intro draw hdraw
        change draw ∈ (s.draws.eraseIdx position).map FrameDraw.draw ++
          (s.painted ++ [(frame.draw, _)]).map Prod.fst at hdraw
        rw [hpainted] at hdraw
        exact drawn.fresh draw (hperm.subset hdraw)
      · change ((s.draws.eraseIdx position).map FrameDraw.draw ++
          (s.painted ++ [(frame.draw, _)]).map Prod.fst).Nodup
        rw [hpainted]
        exact hperm.nodup_iff.mpr drawn.nodup
      · change some _ = (s.painted ++ [_]).getLast?.map _
        rw [List.getLast?_concat]
        rfl
      · change (s.submitted ++ [_]).filterMap frameRow = (s.painted ++ [_]).map Prod.snd
        rw [List.filterMap_append, List.map_append, drawn.rows]
        rfl
  | virtualListFrame startNs now origin listId =>
    obtain rfl := Option.some.inj h
    unfold virtualListFrame
    split
    · exact drawn
    · dsimp only
      split
      · exact ⟨drawn.fresh, drawn.nodup, drawn.last, drawn.rows⟩
      · refine ⟨drawn.fresh, drawn.nodup, drawn.last, ?_⟩
        change (s.submitted ++ [_]).filterMap frameRow = _
        rw [List.filterMap_append]
        exact (List.append_nil _).trans drawn.rows
  | cycle c =>
    obtain rfl := Option.some.inj h
    obtain ⟨hlinks, hdraws, -, hpainted, -⟩ := submitCycle_fields s c
    have hrows := (frame_events_cycle s c).trans drawn.rows
    refine ⟨?_, ?_, ?_, hrows.trans ?_⟩
    all_goals
      unfold cycle
      dsimp only
    · rw [hlinks, hdraws, hpainted]
      exact drawn.fresh
    · rw [hdraws, hpainted]
      exact drawn.nodup
    · rw [hlinks, hpainted]
      exact drawn.last
    · rw [hpainted]
  | deactivate =>
    obtain rfl := Option.some.inj h
    exact ⟨drawn.fresh, drawn.nodup, drawn.last, drawn.rows⟩

theorem patch_events_cycle (deferred : Deferred s) (c : Cycle) :
    (cycle s c).submitted.filterMap patchPass =
      s.submitted.filterMap patchPass ++ ownPasses s c.ordinal := by
  have hpasses : ((ownPasses s c.ordinal).map fun (_, pass) => CaptureEvent.virtualListFrame pass).filterMap
      patchPass = ownPasses s c.ordinal := by
    rw [List.filterMap_map]
    refine (List.filterMap_congr (g := some) fun pass hpass => ?_).trans List.filterMap_some
    have horigin := deferred.own pass (List.mem_filter.mp hpass).1
    simp only [Function.comp_apply, patchPass, horigin]
  have hown : ownPasses (submitCycle s c) c.ordinal = ownPasses s c.ordinal := by
    rw [ownPasses, (submitCycle_fields s c).1]
    rfl
  have hsubmitted : (submitCycle s c).submitted.filterMap patchPass = s.submitted.filterMap patchPass := by
    unfold submitCycle
    split
    · rw [submit, List.filterMap_append]
      exact List.append_nil _
    · rfl
  unfold cycle
  dsimp only
  rw [List.filterMap_append, hown, hpasses, hsubmitted]

theorem deferred_next (deferred : Deferred s) (h : next s e = some t) : Deferred t := by
  cases e with
  | noteCycleApplied ordinal =>
    obtain rfl := Option.some.inj h
    unfold noteCycleApplied
    split
    · exact deferred
    · exact ⟨deferred.own, deferred.once⟩
  | beginFrameDraw now =>
    obtain rfl := Option.some.inj h
    exact ⟨deferred.own, deferred.once⟩
  | abandonFrameDraw position =>
    obtain ⟨frame, -, rfl⟩ := Option.map_eq_some_iff.mp h
    exact ⟨deferred.own, deferred.once⟩
  | gpuiFrame position now work =>
    obtain ⟨frame, -, rfl⟩ := Option.map_eq_some_iff.mp h
    unfold gpuiFrame
    dsimp only
    split
    · exact ⟨deferred.own, deferred.once⟩
    · refine ⟨deferred.own, ?_⟩
      change s.deferred.Perm (s.links.deferredPasses ++ (s.submitted ++ [_]).filterMap patchPass)
      rw [List.filterMap_append, List.filterMap_cons_none rfl, List.filterMap_nil, List.append_nil]
      exact deferred.once
  | virtualListFrame startNs now origin listId =>
    obtain rfl := Option.some.inj h
    unfold virtualListFrame
    split
    · exact deferred
    · dsimp only
      split
      · refine ⟨fun pass hpass => ?_, ?_⟩
        · rcases List.mem_append.mp hpass with hpass | hpass
          · exact deferred.own pass hpass
          · rw [List.mem_singleton.mp hpass]
        · refine (deferred.once.append_right [_]).trans ?_
          change (s.links.deferredPasses ++ s.submitted.filterMap patchPass ++ [_]).Perm
            (s.links.deferredPasses ++ [_] ++ s.submitted.filterMap patchPass)
          rw [List.append_assoc, List.append_assoc]
          exact List.perm_append_comm.append_left _
      · rename_i hother
        refine ⟨deferred.own, ?_⟩
        change s.deferred.Perm (s.links.deferredPasses ++ (s.submitted ++ [_]).filterMap patchPass)
        have hnone : patchPass (.virtualListFrame ⟨min startNs now, now, origin, listId⟩) = none := by
          cases origin with
          | paint frame => rfl
          | patch cycle => cases cycle with
            | none => rfl
            | some cycle => exact absurd rfl (hother cycle)
        rw [List.filterMap_append, List.filterMap_cons_none hnone, List.filterMap_nil, List.append_nil]
        exact deferred.once
  | cycle c =>
    obtain rfl := Option.some.inj h
    have hlinks := (submitCycle_fields s c).1
    have hdeferred := (submitCycle_fields s c).2.2.2.2.2
    refine ⟨fun pass hpass => deferred.own pass ?_, ?_⟩
    · unfold cycle at hpass
      dsimp only at hpass
      rw [hlinks] at hpass
      exact (List.mem_filter.mp hpass).1
    · rw [patch_events_cycle deferred c]
      unfold cycle
      dsimp only
      rw [hlinks, hdeferred]
      refine deferred.once.trans ?_
      have hsplit : s.links.deferredPasses.Perm
          (ownPasses s c.ordinal ++ s.links.deferredPasses.filter fun (owner, _) => owner ≠ c.ordinal) := by
        have hperm := List.filter_append_perm (fun ((owner, _) : ℕ × ListPass) => owner = c.ordinal)
          s.links.deferredPasses
        simpa only [ownPasses, decide_not] using hperm.symm
      refine (hsplit.append_right _).trans ?_
      rw [List.perm_iff_count]
      intro x
      simp only [List.count_append]
      omega
  | deactivate =>
    obtain rfl := Option.some.inj h
    exact ⟨deferred.own, deferred.once⟩

theorem ordered_next (ordered : (held s ++ s.links.applied).Sublist s.noted) (newest : NewestFirst s e)
    (h : next s e = some t) : (held t ++ t.links.applied).Sublist t.noted := by
  cases e with
  | noteCycleApplied ordinal =>
    obtain rfl := Option.some.inj h
    unfold noteCycleApplied
    split
    · exact ordered
    · change (held s ++ (s.links.applied ++ [ordinal])).Sublist (s.noted ++ [ordinal])
      rw [← List.append_assoc]
      exact ordered.append_right _
  | beginFrameDraw now =>
    obtain rfl := Option.some.inj h
    change ((s.draws ++ [_]).flatMap FrameDraw.cycles ++ []).Sublist s.noted
    rw [List.flatMap_append, List.append_nil]
    simpa [held] using ordered
  | abandonFrameDraw position =>
    obtain ⟨frame, hframe, rfl⟩ := Option.map_eq_some_iff.mp h
    obtain ⟨hposition, rfl⟩ := List.getElem?_eq_some_iff.mp hframe
    have hlater : (s.draws.drop (position + 1)).flatMap FrameDraw.cycles = [] :=
      List.flatMap_eq_nil_iff.mpr newest
    have hheld : held s = (s.draws.take position).flatMap FrameDraw.cycles ++ s.draws[position].cycles := by
      have hsplit : s.draws = s.draws.take position ++ s.draws[position] :: s.draws.drop (position + 1) := by
        rw [List.getElem_cons_drop, List.take_append_drop]
      rw [held]
      conv_lhs => rw [hsplit]
      rw [List.flatMap_append, List.flatMap_cons, hlater, List.append_nil]
    change ((s.draws.eraseIdx position).flatMap FrameDraw.cycles ++
      (s.draws[position].cycles ++ s.links.applied)).Sublist s.noted
    rw [List.eraseIdx_eq_take_drop_succ, List.flatMap_append, hlater, List.append_nil, ← List.append_assoc,
      ← hheld]
    exact ordered
  | gpuiFrame position now work =>
    obtain ⟨frame, hframe, rfl⟩ := Option.map_eq_some_iff.mp h
    have hsub : ((s.draws.eraseIdx position).flatMap FrameDraw.cycles).Sublist (held s) :=
      (List.eraseIdx_sublist s.draws position).flatMap FrameDraw.cycles
    have hsub' := (hsub.append_right s.links.applied).trans ordered
    unfold gpuiFrame
    dsimp only
    split <;> exact hsub'
  | virtualListFrame startNs now origin listId =>
    obtain rfl := Option.some.inj h
    unfold virtualListFrame
    split
    · exact ordered
    · dsimp only
      split <;> exact ordered
  | cycle c =>
    obtain rfl := Option.some.inj h
    obtain ⟨hlinks, hdraws, hnoted, -⟩ := submitCycle_fields s c
    unfold held cycle
    dsimp only
    rw [hlinks, hdraws, hnoted]
    exact ordered
  | deactivate =>
    obtain rfl := Option.some.inj h
    exact ordered

end Steps

section Runs

variable {s : Recording} {detail : Detail}

theorem cycle_releases (s : Recording) (c : Cycle) :
    (cycle s c).submitted = s.submitted ++
        (if s.detail.recordsCycle c.measurementPhase then [.cycle c] else []) ++
          (ownPasses s c.ordinal).map (fun (_, pass) => .virtualListFrame pass) ∧
      ownPasses (cycle s c) c.ordinal = [] := by
  have hown : ownPasses (submitCycle s c) c.ordinal = ownPasses s c.ordinal := by
    rw [ownPasses, (submitCycle_fields s c).1]
    rfl
  constructor
  · unfold cycle
    dsimp only
    rw [hown]
    congr 1
    unfold submitCycle
    split
    · rfl
    · exact (List.append_nil _).symm
  · unfold cycle
    rw [ownPasses, List.filter_filter]
    refine List.filter_eq_nil_iff.mpr fun pass _ => ?_
    simp

theorem paintedFrame_drawn (drawn : Drawn s) {draw ordinal : ℕ}
    (h : paintedFrame s (some draw) = some ordinal) :
    ∃ row, (draw, row) ∈ s.painted ∧ row.ordinal = ordinal ∧
      ∀ other, (draw, other) ∈ s.painted → other = row := by
  obtain ⟨⟨painted, _⟩, hfilter, rfl⟩ := Option.map_eq_some_iff.mp h
  obtain ⟨hlast, hdraw⟩ := Option.filter_eq_some_iff.mp hfilter
  obtain rfl : painted = draw := by simpa using hdraw
  rw [drawn.last] at hlast
  obtain ⟨⟨_, row⟩, hrow, heq⟩ := Option.map_eq_some_iff.mp hlast
  obtain ⟨rfl, rfl⟩ := Prod.mk.inj heq
  refine ⟨row, List.mem_of_getLast? hrow, rfl, fun other hother => ?_⟩
  have hnodup := (List.nodup_append.mp drawn.nodup).2.1
  have heq := List.inj_on_of_nodup_map hnodup hother (List.mem_of_getLast? hrow) rfl
  exact (Prod.mk.inj heq).2

/-- Every noted ordinal is at one place, in order as long as the newest draws are abandoned first;
every deferred pass waits or was submitted, once; and a draw answers its own frame. -/
theorem cycles_linked_once (h : Reachable (linkSystem detail) s) :
    Placed s ∧ s.submitted.filterMap frameRow = s.painted.map Prod.snd ∧
      (Reachable ((linkSystem detail).restrict NewestFirst) s → s.links.applied.Sublist s.noted) ∧
      s.deferred.Perm (s.links.deferredPasses ++ s.submitted.filterMap patchPass) ∧
      (∀ c, (cycle s c).submitted = s.submitted ++
          (if s.detail.recordsCycle c.measurementPhase then [.cycle c] else []) ++
            (ownPasses s c.ordinal).map (fun (_, pass) => .virtualListFrame pass) ∧
        ownPasses (cycle s c) c.ordinal = []) ∧
      ∀ draw ordinal, paintedFrame s (some draw) = some ordinal →
        ∃ row, (draw, row) ∈ s.painted ∧ row.ordinal = ordinal ∧
          ∀ other, (draw, other) ∈ s.painted → other = row := by
  have invariants : Placed s ∧ Drawn s ∧ Deferred s := by
    refine reachable_invariant (S := linkSystem detail) (P := fun s => Placed s ∧ Drawn s ∧ Deferred s)
      ⟨.nil, ⟨nofun, .nil, rfl, rfl⟩, ⟨nofun, .nil⟩⟩ ?_ h
    rintro s e t ⟨placed, drawn, deferred⟩ hnext
    exact ⟨placed_next placed hnext, drawn_next drawn hnext, deferred_next deferred hnext⟩
  obtain ⟨placed, drawn, deferred⟩ := invariants
  refine ⟨placed, drawn.rows, fun hnewest => ?_, deferred.once, cycle_releases s, fun draw ordinal =>
    paintedFrame_drawn drawn⟩
  have ordered : (held s ++ s.links.applied).Sublist s.noted := by
    refine reachable_invariant (S := (linkSystem detail).restrict NewestFirst)
      (P := fun s => (held s ++ s.links.applied).Sublist s.noted) (List.Sublist.refl []) ?_ hnewest
    rintro s e t ordered ⟨newest, hnext⟩
    exact ordered_next ordered newest hnext
  exact (List.sublist_append_right _ _).trans ordered

end Runs

section Examples

def mountCycle : Cycle where
  runId := 1
  ordinal := 0
  stepOrdinal := none
  measurementPhase := .interactive
  patchKind := .mount
  startNs := 0
  endNs := 0
  rocWorkValid := true
  rocWork := fun _ => false
  componentWork := none

def noWork : NativeWork := ⟨fun _ => 0, fun _ => 0⟩

abbrev links : System Recording LinkEvent := linkSystem .summary

def after (events : List LinkEvent) : Recording :=
  events.foldl (fun s e => (next s e).getD s) links.initial

/-- Two draws overlap, each with a cycle. -/
def overlapping : List LinkEvent :=
  [.noteCycleApplied 0, .beginFrameDraw 0, .noteCycleApplied 1, .beginFrameDraw 0]

theorem overlapping_reachable (ok : Recording → LinkEvent → Prop)
    (hnote : ∀ s ordinal, ok s (.noteCycleApplied ordinal)) (hbegin : ∀ s now, ok s (.beginFrameDraw now)) :
    Reachable (links.restrict ok) (after overlapping) := by
  have notes (s : Recording) (ordinal : ℕ) :
      (links.restrict ok).Step s (.noteCycleApplied ordinal) (noteCycleApplied s ordinal) :=
    ⟨hnote s ordinal, rfl⟩
  have begins (s : Recording) (now : ℕ) :
      (links.restrict ok).Step s (.beginFrameDraw now) (beginFrameDraw s now) := ⟨hbegin s now, rfl⟩
  have first := reachable_step (reachable_step (reachable_initial _) (notes _ 0)) (begins _ 0)
  exact reachable_step (reachable_step first (notes _ 1)) (begins _ 0)

theorem overlapping_draws_linked : Placed (after overlapping) :=
  (cycles_linked_once (reachable_of_restrict (overlapping_reachable (fun _ _ => True)
    (fun _ _ => trivial) (fun _ _ => trivial)))).1

theorem links_fail_as_claimed :
    (¬∀ s, Reachable (links.restrict OldestFirst) s → s.links.applied.Sublist s.noted) ∧
      (¬∀ s, Reachable links s → s.noted.Perm (s.links.applied ++ held s ++ attributed s)) ∧
        ¬∀ s c, Reachable links s → .cycle c ∈ s.submitted → ownPasses s c.ordinal = [] := by
  refine ⟨fun h => ?_, fun h => ?_, fun h => ?_⟩
  · -- the older draw is abandoned first, and then the other one
    let reversed := overlapping ++ [.abandonFrameDraw 0, .abandonFrameDraw 0]
    have overlapped := overlapping_reachable OldestFirst (fun _ _ => trivial) (fun _ _ => trivial)
    have abandons : (links.restrict OldestFirst).Step (after overlapping) (.abandonFrameDraw 0)
        (after (overlapping ++ [.abandonFrameDraw 0])) := ⟨rfl, rfl⟩
    have abandonsAgain : (links.restrict OldestFirst).Step
        (after (overlapping ++ [.abandonFrameDraw 0])) (.abandonFrameDraw 0) (after reversed) := ⟨rfl, rfl⟩
    have hsub := h _ (reachable_step (reachable_step overlapped abandons) abandonsAgain)
    exact absurd hsub (by decide)
  · -- recording stops while a frame is drawn
    let stopped : List LinkEvent := [.noteCycleApplied 0, .beginFrameDraw 0, .deactivate]
    have notes : links.Step links.initial (.noteCycleApplied 0) (after [.noteCycleApplied 0]) := rfl
    have begins : links.Step (after [.noteCycleApplied 0]) (.beginFrameDraw 0)
        (after [.noteCycleApplied 0, .beginFrameDraw 0]) := rfl
    have stops : links.Step (after [.noteCycleApplied 0, .beginFrameDraw 0]) .deactivate (after stopped) := rfl
    have paints : links.Step (after stopped) (.gpuiFrame 0 1 noWork)
        (after (stopped ++ [.gpuiFrame 0 1 noWork])) := rfl
    have drawing := reachable_step (reachable_step (reachable_initial _) notes) begins
    have hperm := h _ (reachable_step (reachable_step drawing stops) paints)
    exact absurd hperm (by decide)
  · -- a pass is deferred to a cycle that was submitted before
    have submits : links.Step links.initial (.cycle mountCycle) (after [.cycle mountCycle]) := rfl
    have defers : links.Step (after [.cycle mountCycle]) (.virtualListFrame 0 0 (.patch (some 0)) 7)
        (after [.cycle mountCycle, .virtualListFrame 0 0 (.patch (some 0)) 7]) := rfl
    have hown := h _ mountCycle (reachable_step (reachable_step (reachable_initial _) submits) defers)
      (List.mem_singleton.mpr rfl)
    exact absurd hown (by decide)

end Examples

end FrameLinks
