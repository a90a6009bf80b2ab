import Mathlib.Algebra.Order.BigOperators.Group.Finset
import Mathlib.Data.Prod.Lex
import RocGui.ElementIdentities
import RocGui.LocatorMatches

/-! Telling canvases their sizes until every one of them has heard its own. -/
namespace CanvasSettling

open FiniteMaps Methods KeyedOrder GraphState FragmentValidation GraphPatches GraphForests GraphRuns
open GraphMounting ElementIdentities NodeForms PopoverCarries FocusSearches FocusLandings
open LocatorMatches Transitions

abbrev Size := ℕ × ℕ

variable {K : Type} [DecidableEq K] {α : Type}

section Model

def mostSizes : ℕ := 8

structure Application (α K : Type) [DecidableEq K] where
  onSize : α → ℕ → Size → α × Patch K
  hashOrder : α → Enumeration K (Option (KeyedChild K))

/-- The locals of `settle_canvas_sizes`; `pending` is what is left of one pass. -/
structure Settling (α K : Type) where
  graph : MountedGraph K
  app : α
  heard : FiniteMap ElementIdentity ℕ
  pending : List (ℕ × Size)

inductive Turn (α K : Type) where
  | running (s : Settling α K)
  | settled (g : MountedGraph K)
  /-- A canvas has heard more than `mostSizes` sizes. -/
  | failed
  /-- The graph did not accept a patch. -/
  | rejected (failure : Failure (GraphError K))
  /-- The host's own reading of the graph failed. -/
  | broken (failure : Failure (GraphError K))

def asksSize (g : MountedGraph K) (id : ℕ) : Bool :=
  match (g.node id).map Node.kind with
  | some (.canvas _ true) => true
  | _ => false

/-- `report_canvas_size`. -/
def reportCanvasSize (g : MountedGraph K) (id : ℕ) (size : Size) : Bool × MountedGraph K :=
  if asksSize g id then
    (g.interaction.canvasSizes.get id ≠ some size,
      { g with interaction :=
        { g.interaction with canvasSizes := g.interaction.canvasSizes.set id size } })
  else (false, g)

variable (sizeOf : ℕ → Size)

/-- What a presented canvas has still to hear. A node keeps its style, and its size is read off the
style, so the size is that of its id. -/
def pendingSize (g : MountedGraph K) (node : Node K) : Option (ℕ × Size) :=
  match node.kind with
  | .canvas _ true =>
    if g.interaction.canvasSizes.get node.id ≠ some (sizeOf node.id) then
      some (node.id, sizeOf node.id)
    else none
  | _ => none

def pendingSizes (g : MountedGraph K) : Reading K (List (ℕ × Size)) := do
  return (← presentedPreorder g).filterMap (pendingSize sizeOf g)

def hear (app : Application α K) (s : Settling α K) (id : ℕ) (size : Size)
    (rest : List (ℕ × Size)) (graph : MountedGraph K) : Turn α K :=
  match graph.identity id with
  | .error failure => .broken failure
  | .ok identity =>
    let times := (s.heard.get identity).getD 0 + 1
    if mostSizes < times then .failed
    else
      let (state, patch) := app.onSize s.app id size
      match (apply (app.hashOrder state) patch).run graph with
      | .error failure _ => .rejected failure
      | .ok _ graph => .running ⟨graph, state, s.heard.set identity times, rest⟩

/-- One turn of either loop: a new pass, or the next canvas of the pass. -/
def turn (app : Application α K) (s : Settling α K) : Turn α K :=
  match s.pending with
  | [] =>
    match pendingSizes sizeOf s.graph with
    | .error failure => .broken failure
    | .ok [] => .settled s.graph
    | .ok (next :: later) => .running { s with pending := next :: later }
  | (id, size) :: rest =>
    match reportCanvasSize s.graph id size with
    | (false, graph) => .running { s with graph, pending := rest }
    | (true, graph) => hear app s id size rest graph

def turns (app : Application α K) : ℕ → Settling α K → Turn α K
  | 0, s => .running s
  | n + 1, s =>
    match turn sizeOf app s with
    | .running t => turns app n t
    | ended => ended

/-- `settle_canvas_sizes` when it is called. -/
def starting (g : MountedGraph K) (a : α) : Settling α K := ⟨g, a, ∅, []⟩

end Model

section Specification

/-- Every presented canvas that asks for its size has heard it. -/
def AllHeard (sizeOf : ℕ → Size) (g : MountedGraph K) : Prop :=
  ∃ nodes, presentedPreorder g = .ok nodes ∧ ∀ n ∈ nodes, ∀ label,
    n.kind = .canvas label true → g.interaction.canvasSizes.get n.id = some (sizeOf n.id)

def Ended (sizeOf : ℕ → Size) : Turn α K → Prop
  | .settled g => AllHeard sizeOf g
  | .failed => True
  | _ => False

def Asks (g : MountedGraph K) (identity : ElementIdentity) : Prop :=
  ∃ id, asksSize g id = true ∧ g.identity id = (.ok identity : Reading K ElementIdentity)

end Specification

section Graphs

variable {g g' : MountedGraph K} {id : ℕ} {size : Size} {fuel : ℕ} {pending : List ℕ}

structure Sound (g : MountedGraph K) : Prop where
  shape : Shape g
  form : Formed g

theorem sound_interaction (h : Sound g) (i : Interaction) : Sound { g with interaction := i } :=
  ⟨⟨h.shape.orders, h.shape.linked, h.shape.weighed, h.shape.issued⟩,
    ⟨h.form.named, h.form.counted, h.form.ordered⟩⟩

theorem sound_reachable (h : Reachable (accepting K) g) : Sound g :=
  ⟨shape_reachable h, formed_reachable h⟩

theorem sound_apply {hashOrder : Enumeration K (Option (KeyedChild K))} {patch : Patch K}
    {a : GraphApply K} (h : Sound g) (hrun : (apply hashOrder patch).run g = .ok a g') :
    Sound g' :=
  ⟨step_shape h.shape ⟨hashOrder, a, hrun⟩, step_formed h.shape h.form ⟨hashOrder, a, hrun⟩⟩

omit [DecidableEq K] in
theorem asks_node (h : asksSize g id = true) :
    ∃ n label, g.node id = some n ∧ n.kind = .canvas label true := by
  unfold asksSize at h
  split at h
  · rename_i label heq
    obtain ⟨n, hn, hkind⟩ := Option.map_eq_some_iff.mp heq
    exact ⟨n, label, hn, hkind⟩
  · cases h

theorem identity_answers (h : Sound g) (asks : asksSize g id = true) :
    ∃ identity, g.identity id = (.ok identity : Reading K ElementIdentity) := by
  obtain ⟨n, label, hn, -⟩ := asks_node asks
  obtain ⟨path, hpath, -⟩ := path_exists h.shape (mounted_node hn)
  exact ⟨path, (identity_iff h.shape (mounted_node hn)).mpr hpath⟩

theorem presented_mounted {nodes : List (Node K)}
    (h : presentedPreorderFrom g fuel pending = .ok nodes) {n : Node K} (hn : n ∈ nodes) :
    ∃ id, g.node id = some n := by
  induction fuel generalizing pending nodes with
  | zero =>
    cases pending with
    | nil =>
      cases h
      cases hn
    | cons x pending => cases h
  | succ fuel ih =>
    cases pending with
    | nil =>
      cases h
      cases hn
    | cons x pending =>
      rw [presentedPreorderFrom] at h
      split at h
      · cases h
      · rename_i node hx
        obtain ⟨children, -, hrest⟩ := except_bind_ok.mp h
        obtain ⟨below, hbelow, heq⟩ := except_bind_ok.mp hrest
        cases heq
        rcases List.mem_cons.mp hn with rfl | hmem
        · exact ⟨x, hx⟩
        · exact ih hbelow hmem

variable {sizeOf : ℕ → Size}

theorem pending_told {next : ℕ × Size} {todo : List (ℕ × Size)} (h : Sound g)
    (hread : pendingSizes sizeOf g = .ok todo) (hmem : next ∈ todo) :
    (reportCanvasSize g next.1 next.2).1 = true := by
  obtain ⟨nodes, hnodes, heq⟩ := except_bind_ok.mp hread
  cases heq
  obtain ⟨n, hn, hnext⟩ := List.mem_filterMap.mp hmem
  obtain ⟨id, hid⟩ := presented_mounted hnodes hn
  obtain ⟨e, he, rfl⟩ := Option.map_eq_some_iff.mp hid
  rw [← h.form.named id e he] at hid
  unfold pendingSize at hnext
  split at hnext
  · rename_i label hkind
    split at hnext
    · rename_i unheard
      cases hnext
      have asks : asksSize g e.node.id = true := by
        rw [asksSize, hid, Option.map_some, hkind]
      rw [reportCanvasSize, if_pos asks]
      exact decide_eq_true unheard
    · cases hnext
  · cases hnext

theorem pending_answers (sizeOf : ℕ → Size) (h : Sound g) : ∃ todo, pendingSizes sizeOf g = .ok todo := by
  obtain ⟨nodes, hnodes⟩ := presented_answers h.shape h.form
  exact ⟨nodes.filterMap (pendingSize sizeOf g), by rw [pendingSizes, hnodes]; rfl⟩

theorem nothing_pending (h : pendingSizes sizeOf g = .ok []) : AllHeard sizeOf g := by
  obtain ⟨nodes, hnodes, heq⟩ := except_bind_ok.mp h
  have hnone := List.filterMap_eq_nil_iff.mp (Except.ok.inj heq)
  refine ⟨nodes, hnodes, fun n hn label hkind => ?_⟩
  have := hnone n hn
  rw [pendingSize, hkind] at this
  by_contra unheard
  rw [if_pos unheard] at this
  cases this

theorem report_sound (h : Sound g) (id : ℕ) (size : Size) : Sound (reportCanvasSize g id size).2 := by
  unfold reportCanvasSize
  split
  · exact sound_interaction h _
  · exact h

omit [DecidableEq K] in
theorem report_identity (g : MountedGraph K) (id : ℕ) (size : Size) :
    ((reportCanvasSize g id size).2.identity id : Reading K _) = g.identity id := by
  refine identity_congr (g := g) ?_ id
  unfold reportCanvasSize
  split <;> rfl

omit [DecidableEq K] in
theorem told_asks (h : (reportCanvasSize g id size).1 = true) : asksSize g id = true := by
  unfold reportCanvasSize at h
  split at h
  · assumption
  · cases h

theorem asking_finite (g : MountedGraph K) : {identity | Asks g identity}.Finite := by
  let identityOf (id : ℕ) : ElementIdentity :=
    ((g.identity id : Reading K ElementIdentity).toOption).getD []
  refine Set.Finite.subset (g.nodes.keys.image identityOf).finite_toSet ?_
  rintro identity ⟨id, asks, hidentity⟩
  obtain ⟨n, label, hn, -⟩ := asks_node asks
  refine Finset.mem_coe.mpr (Finset.mem_image.mpr ⟨id, ?_, ?_⟩)
  · exact FiniteMap.mem_keys.mpr (mounted_iff.mp (mounted_node hn))
  · simp [identityOf, hidentity, Except.toOption]

end Graphs

section Rank

variable {sizeOf : ℕ → Size} {app : Application α K} {s t : Settling α K}

/-- How many more sizes the given identities may hear, the one that is refused included. -/
def left (identities : Finset ElementIdentity) (heard : FiniteMap ElementIdentity ℕ) : ℕ :=
  ∑ identity ∈ identities, (mostSizes + 1 - (heard.get identity).getD 0)

/-- How long the pass may go on before a canvas is told, a new pass included. -/
def waiting (s : Settling α K) : ℕ :=
  match s.pending with
  | [] => 1
  | (id, size) :: rest => if (reportCanvasSize s.graph id size).1 then 0 else rest.length + 2

theorem left_heard {identities : Finset ElementIdentity} {heard : FiniteMap ElementIdentity ℕ}
    {identity : ElementIdentity} (hmem : identity ∈ identities)
    (few : (heard.get identity).getD 0 + 1 ≤ mostSizes) :
    left identities (heard.set identity ((heard.get identity).getD 0 + 1)) <
      left identities heard := by
  refine Finset.sum_lt_sum (fun other _ => ?_) ⟨identity, hmem, ?_⟩
  · rw [FiniteMap.get_set]
    split
    · rename_i heq
      rw [heq, Option.getD_some]
      omega
    · exact Nat.le_refl _
  · rw [FiniteMap.get_set_self, Option.getD_some]
    omega

omit [DecidableEq K] in
theorem waiting_rest {id : ℕ} {size : Size} {rest : List (ℕ × Size)} {graph : MountedGraph K}
    (hpending : s.pending = (id, size) :: rest)
    (hreport : reportCanvasSize s.graph id size = (false, graph)) :
    waiting { s with graph, pending := rest } < waiting s := by
  have hs : waiting s = rest.length + 2 := by
    rw [waiting, hpending]
    simp [hreport]
  rw [hs]
  unfold waiting
  split
  · omega
  · rename_i next later heq
    dsimp only at heq
    subst heq
    split
    · omega
    · simp

theorem turn_rank {identities : Finset ElementIdentity} (h : Sound s.graph)
    (known : ∀ identity, Asks s.graph identity → identity ∈ identities)
    (hturn : turn sizeOf app s = .running t) : Sound t.graph ∧
      toLex (left identities t.heard, waiting t) < toLex (left identities s.heard, waiting s) := by
  unfold turn at hturn
  split at hturn
  · rename_i hpending
    split at hturn
    · cases hturn
    · cases hturn
    · rename_i next later hread
      cases hturn
      have told := pending_told h hread List.mem_cons_self
      refine ⟨h, Prod.Lex.toLex_lt_toLex.mpr (.inr ⟨rfl, ?_⟩)⟩
      simp [waiting, hpending, told]
  · rename_i id size rest hpending
    split at hturn
    · rename_i graph hreport
      cases hturn
      have sound := report_sound h id size
      rw [hreport] at sound
      exact ⟨sound, Prod.Lex.toLex_lt_toLex.mpr (.inr ⟨rfl, waiting_rest hpending hreport⟩)⟩
    · rename_i graph hreport
      have sound := report_sound h id size
      have asks : asksSize s.graph id = true := told_asks (congrArg Prod.fst hreport)
      have same := report_identity s.graph id size
      rw [hreport] at sound same
      unfold hear at hturn
      split at hturn
      · cases hturn
      · rename_i identity hidentity
        dsimp only at hturn
        split at hturn
        · cases hturn
        · rename_i few
          split at hturn
          · cases hturn
          · rename_i a after hrun
            cases hturn
            have hmem := known identity ⟨id, asks, same.symm.trans hidentity⟩
            exact ⟨sound_apply sound hrun,
              Prod.Lex.toLex_lt_toLex.mpr (.inl (left_heard hmem (Nat.le_of_not_lt few)))⟩

theorem turn_ends (h : Sound s.graph) (stops : ∀ t, turn sizeOf app s ≠ .running t)
    (accepted : ∀ failure, turn sizeOf app s ≠ .rejected failure) :
    Ended sizeOf (turn sizeOf app s) := by
  unfold turn at stops accepted ⊢
  split at stops
  · rename_i hpending
    obtain ⟨todo, htodo⟩ := pending_answers sizeOf h
    simp only [hpending, htodo] at stops accepted ⊢
    cases todo with
    | nil => exact nothing_pending htodo
    | cons next later => exact absurd rfl (stops _)
  · rename_i id size rest hpending
    simp only [hpending] at stops accepted ⊢
    split at stops
    · exact absurd rfl (stops _)
    · rename_i graph hreport
      simp only [hreport] at stops accepted ⊢
      have asks : asksSize s.graph id = true := told_asks (congrArg Prod.fst hreport)
      have same := report_identity s.graph id size
      obtain ⟨identity, hidentity⟩ := identity_answers h asks
      rw [hreport, hidentity] at same
      unfold hear at stops accepted ⊢
      simp only [same] at stops accepted ⊢
      split at stops
      · rename_i many
        rw [if_pos many]
        trivial
      · rename_i few
        simp only [if_neg few] at stops accepted ⊢
        split at stops
        · rename_i failure after hrun
          simp only [hrun] at accepted
          exact absurd rfl (accepted _)
        · exact absurd rfl (stops _)

end Rank

section Runs

variable {sizeOf : ℕ → Size} {app : Application α K} {s t : Settling α K} {n : ℕ}

theorem turns_succ (h : turns sizeOf app n s = .running t) :
    turns sizeOf app (n + 1) s = turn sizeOf app t := by
  induction n generalizing s with
  | zero =>
    cases h
    rw [turns]
    split
    · rename_i u hu
      rw [hu, turns]
    · rfl
  | succ n ih =>
    rw [turns] at h ⊢
    split at h
    · exact ih h
    · rename_i stops
      exact absurd h (stops t)

theorem turns_ended (h : ∀ t, turns sizeOf app n s ≠ .running t) (m : ℕ) :
    turns sizeOf app (n + m) s = turns sizeOf app n s := by
  induction n generalizing s with
  | zero => exact absurd rfl (h s)
  | succ n ih =>
    rw [Nat.succ_add, turns]
    rw [turns] at h ⊢
    split
    · rename_i t hturn
      simp only [hturn] at h
      exact ih h
    · rfl

/-- The identities under which a canvas asks for its size, over a whole settling. -/
def askingAlong (sizeOf : ℕ → Size) (app : Application α K) (s : Settling α K) :
    Set ElementIdentity :=
  {identity | ∃ n t, turns sizeOf app n s = .running t ∧ Asks t.graph identity}

theorem asking_of_ended (h : Ended sizeOf (turns sizeOf app n s)) :
    (askingAlong sizeOf app s).Finite := by
  have stops (t : Settling α K) : turns sizeOf app n s ≠ .running t := by
    intro heq
    rw [heq] at h
    exact h
  have each (m : ℕ) :
      {identity | ∃ t, turns sizeOf app m s = .running t ∧ Asks t.graph identity}.Finite := by
    cases hm : turns sizeOf app m s with
    | running t =>
      refine (asking_finite t.graph).subset ?_
      rintro identity ⟨t', heq, asks⟩
      cases heq
      exact asks
    | _ =>
      refine Set.finite_empty.subset ?_
      rintro identity ⟨t, heq, -⟩
      cases heq
  refine ((Finset.range n).finite_toSet.biUnion fun m _ => each m).subset ?_
  rintro identity ⟨m, t, hm, asks⟩
  refine Set.mem_biUnion (Finset.mem_coe.mpr (Finset.mem_range.mpr ?_)) ⟨t, hm, asks⟩
  by_contra late
  obtain ⟨k, rfl⟩ := Nat.exists_eq_add_of_le (Nat.le_of_not_lt late)
  rw [turns_ended stops] at hm
  exact stops t hm

/-- With finitely many identities the rank falls until the settling ends. -/
theorem ends_of_asking (sound : Sound s.graph) (finite : (askingAlong sizeOf app s).Finite)
    (accepted : ∀ n failure, turns sizeOf app n s ≠ .rejected failure) :
    ∃ n, Ended sizeOf (turns sizeOf app n s) := by
  let rank (t : Settling α K) := toLex (left finite.toFinset t.heard, waiting t)
  suffices ∀ r : ℕ ×ₗ ℕ, ∀ n t, rank t = r → Sound t.graph → turns sizeOf app n s = .running t →
      ∃ m, Ended sizeOf (turns sizeOf app m s) from this _ 0 s rfl sound rfl
  intro r
  induction r using WellFoundedLT.induction with
  | ind r ih =>
    intro n t hrank ht hn
    have hnext := turns_succ hn
    by_cases goes : ∃ u, turn sizeOf app t = .running u
    · obtain ⟨u, hu⟩ := goes
      obtain ⟨hsound, less⟩ := turn_rank ht
        (fun identity asks => finite.mem_toFinset.mpr ⟨n, t, hn, asks⟩) hu
      exact ih _ (hrank ▸ less) (n + 1) u rfl hsound (hnext.trans hu)
    · refine ⟨n + 1, ?_⟩
      rw [hnext]
      exact turn_ends ht (fun u hu => goes ⟨u, hu⟩) fun failure => hnext ▸ accepted (n + 1) failure

/-- Whatever the application answers, telling the canvases their sizes ends when and only when
the canvases that ask for theirs go by finitely many identities. -/
theorem settles_iff {g : MountedGraph K} (hreach : Reachable (accepting K) g) (i : Interaction)
    (sizeOf : ℕ → Size) (app : Application α K) (a : α)
    (accepted : ∀ n failure,
      turns sizeOf app n (starting { g with interaction := i } a) ≠ .rejected failure) :
    (∃ n, Ended sizeOf (turns sizeOf app n (starting { g with interaction := i } a))) ↔
      (askingAlong sizeOf app (starting { g with interaction := i } a)).Finite := by
  constructor
  · rintro ⟨n, hn⟩
    exact asking_of_ended hn
  · intro finite
    exact ends_of_asking (sound_interaction (sound_reachable hreach) i) finite accepted

end Runs

section Renamed

def canvasNode (label : String) (id : ℕ) : Node ℕ := ⟨id, .canvas label true, []⟩

def canvasEntry (label : String) (id : ℕ) : MountedNode ℕ :=
  ⟨canvasNode label id, none, 1, .named 0 label 0, none⟩

def lone (label : String) (id root : ℕ) (sizes : FiniteMap ℕ Size) : MountedGraph ℕ where
  nodes := (∅ : FiniteMap ℕ (MountedNode ℕ)).set id (canvasEntry label id)
  root := some root
  maxSeenNodeId := id
  maxSeenInstance := none
  boundaryInstances := ∅
  inputLabels := ∅
  inputOwners := ∅
  dialog := none
  interaction := { Interaction.empty with canvasSizes := sizes }

def sizeHeard (id : ℕ) (size : Size) : FiniteMap ℕ Size := (∅ : FiniteMap ℕ Size).set id size

def renamed (label : String) (id : ℕ) : Replacement ℕ :=
  ⟨some id, id + 1, [canvasNode label (id + 1)], []⟩

def validatedCanvas (label : String) (id : ℕ) : ValidatedFragment ℕ :=
  ⟨(∅ : FiniteMap ℕ (Node ℕ)).set id (canvasNode label id), ∅, [id], 2⟩

def renamedPlan (label : String) (id : ℕ) : ReplacementPlan ℕ :=
  ⟨none, none, ∅, 0, [id], validatedCanvas label (id + 1), .named 0 label 0, false, 3⟩

def sizeCarried (label : String) (size : Size) : InteractionCarry :=
  { InteractionCarry.empty with
    canvasSizes := (∅ : FiniteMap ElementIdentity Size).set [.named 0 label 0] size }

variable {label label' : String} {id root : ℕ} {sizes : FiniteMap ℕ Size} {size : Size}

@[simp] theorem canvas_id : (canvasNode label id).id = id := rfl
@[simp] theorem canvas_kind : (canvasNode label id).kind = .canvas label true := rfl
@[simp] theorem canvas_children : (canvasNode label id).children = [] := rfl

theorem canvas_segment (id : ℕ) (named : label ≠ "") :
    IdentitySegment.of (canvasNode label id) 0 0 = .named 0 label 0 := by
  simp [IdentitySegment.of, NodeKind.siblingName, named, NodeKind.tag]

theorem lone_get : (lone label id root sizes).nodes.get id = some (canvasEntry label id) :=
  FiniteMap.get_set_self _ _ _

theorem lone_node : (lone label id root sizes).node id = some (canvasNode label id) := by
  rw [MountedGraph.node, lone_get]
  rfl

theorem lone_climb : (lone label id root sizes).climb = 2 := by
  have hsize : (lone label id root sizes).nodes.size = 1 :=
    FiniteMap.size_eq_length (List.nodup_singleton id) fun k => by
      simp [lone, FiniteMap.get_set]
  rw [MountedGraph.climb, hsize]

theorem lone_identity :
    (lone label id root sizes).identity id = (.ok [.named 0 label 0] : Reading ℕ _) := by
  simp [MountedGraph.identity, lone_climb, MountedGraph.identityFrom, lone_get, canvasEntry, bind,
    Except.bind, pure, Except.pure]

theorem lone_presented : presentedPreorder (lone label id id sizes) = .ok [canvasNode label id] := by
  have hroot : (lone label id id sizes).root = some id := rfl
  simp [presentedPreorder, hroot, lone_climb, presentedPreorderFrom, lone_node, shownChildren,
    isPopover, hiddenPane, MountedGraph.childrenOfRev, lone_get, canvasEntry, bind, Except.bind,
    pure, Except.pure]

theorem canvas_validated (label : String) (id : ℕ) (mounted : ℕ → Option (Node ℕ)) :
    validateFragment (id + 1) [canvasNode label (id + 1)] ∅ none mounted =
      .ok (validatedCanvas label (id + 1)) := by
  simp [validateFragment, indexNodes, refuseFragment, Except.mapError, maxStagedNodes, checkNode,
    tallyNode, checkShape, own, FragmentValidation.traverse, visit, validatedCanvas, bind,
    Except.bind, pure, Except.pure]

theorem renamed_planned (named : label' ≠ "") (other : label ≠ label') :
    planReplacement (renamed label' id) (lone label id id sizes) = .ok (renamedPlan label' id) := by
  have hroot : (lone label id id sizes).root = some id := rfl
  have hmax : (lone label id id sizes).maxSeenNodeId = id := rfl
  have hretired : collectRetired (lone label id id sizes) ∅ 2 [id] = .ok ([id], ∅) := by
    simp [collectRetired, MountedGraph.childrenOfRev, lone_get, canvasEntry, bind, Except.bind,
      pure, Except.pure]
  have hvalidated := canvas_validated label' id (lone label id id sizes).node
  have hsegment := canvas_segment (id + 1) named
  simp [renamed, planReplacement, checkTarget, checkRetained, MountedGraph.parentLocation,
    MountedGraph.cachedSegment, lone_get, lone_climb, hroot, hretired, hvalidated, canvasEntry,
    ownerAt, Except.mapError, checkStaged, hmax, identityAt, validatedRoot, validatedCanvas,
    ValidatedFragment.lookup, rootSegmentOf, hsegment, checkScopes, stagedSegments,
    siblingSegments, renamedPlan, other, bind, Except.bind, pure, Except.pure]

theorem remove_single {κ : Type} {V : Type} [DecidableEq κ] (k : κ) (v : V) :
    ((∅ : FiniteMap κ V).set k v).remove k = ∅ := by
  ext x : 1
  rw [FiniteMap.get_remove, FiniteMap.get_set]
  split <;> rfl

theorem remove_empty {κ : Type} {V : Type} [DecidableEq κ] (k : κ) :
    (∅ : FiniteMap κ V).remove k = ∅ := by
  ext x : 1
  rw [FiniteMap.get_remove, FiniteMap.get_empty]
  split <;> rfl

theorem renamed_carried :
    (carryInteraction [id]).run (lone label id id (sizeHeard id size)) =
      .ok (sizeCarried label size) (lone label id id ∅) := by
  let g := lone label id id (sizeHeard id size)
  have hget : g.interaction.canvasSizes.get id = some size := FiniteMap.get_set_self _ _ _
  have hserial : (noteSerial g.interaction id .empty).run g = .ok .empty g := by
    have hnone : g.interaction.keyboard.serials.get id = none := FiniteMap.get_empty id
    rw [noteSerial, hnone]
    rfl
  have hsize : (noteSize g.interaction id .empty).run g = .ok (sizeCarried label size) g := by
    rw [noteSize, hget]
    exact run_bind_ok (query_ok lone_identity)
  have hedges : (noteEdges g.interaction id (sizeCarried label size)).run g =
      .ok (sizeCarried label size) g := by
    rw [noteEdges, if_neg (by simp [g, lone, Interaction.empty])]
    rfl
  have hforget : Interaction.forget g.interaction id = (lone label id id ∅).interaction := by
    simp [g, lone, sizeHeard, Interaction.forget, Interaction.empty, remove_single, remove_empty]
  change (carryOne .empty id >>= pure).run g = _
  rw [bind_pure, carryOne, run_bind_ok (EStateM.run_get g), run_bind_ok hserial, run_bind_ok hsize,
    run_bind_ok hedges]
  change EStateM.Result.ok _ { g with interaction := Interaction.forget g.interaction id } = _
  rw [hforget]
  rfl

theorem lone_alter {f : MountedNode ℕ → MountedNode ℕ} {message : String}
    (h : f (canvasEntry label id) = canvasEntry label id) :
    (alter message id f).run (lone label id root sizes) = .ok () (lone label id root sizes) := by
  have hset : (lone label id root sizes).nodes.set id (canvasEntry label id) =
      (lone label id root sizes).nodes := by
    ext x : 1
    rw [FiniteMap.get_set]
    split
    · rename_i heq
      rw [heq, lone_get]
    · rfl
  rw [alter_run message f lone_get, h, hset]

theorem lone_settled :
    (settle id).run (lone label id root sizes) = .ok () (lone label id root sizes) := by
  let g := lone label id root sizes
  have hsizes : (query fun g => (canvasEntry label id).node.children.mapM (mountedSize g)).run g =
      .ok [] g := query_ok rfl
  have hsegments : (query fun g => g.childSegments id).run g = .ok [] g := by
    refine query_ok ?_
    simp [g, MountedGraph.childSegments, lone_node, MountedGraph.childrenOf, lone_get, canvasEntry,
      siblingSegments, Except.map]
  rw [settle, run_bind_ok (EStateM.run_get g), lone_get, run_bind_ok (expect_run _ _ _),
    run_bind_ok hsizes, run_bind_ok (lone_alter rfl)]
  -- the canvas has no children whose parents would be set
  refine (run_bind_ok rfl).trans ?_
  rw [refreshChildSegments, run_bind_ok hsegments]
  rfl

theorem renamed_exchanged (named : label' ≠ "") :
    (exchange (renamed label' id) (renamedPlan label' id) 1).run (lone label id id ∅) =
      .ok [] (lone label' (id + 1) (id + 1) ∅) := by
  let bare : MountedGraph ℕ := { lone label id id ∅ with nodes := ∅ }
  let g := lone label' (id + 1) id ∅
  have hretired : ((renamedPlan label' id).removedIds.foldlM (retire "validated retirement") []).run
      (lone label id id ∅) = .ok [] bare := by
    have hremove : { lone label id id ∅ with nodes := (lone label id id ∅).nodes.remove id } = bare := by
      simp [bare, lone, remove_single]
    change (retire "validated retirement" [] id >>= pure).run _ = _
    rw [bind_pure, retire, run_bind_ok (EStateM.run_get _), lone_get,
      run_bind_ok (expect_run _ _ _)]
    exact congrArg (EStateM.Result.ok []) hremove
  have hmounted : (mountNode (renamedPlan label' id).validated (canvasNode label' (id + 1))).run bare =
      .ok () g := by
    have hmax : max id (id + 1) = id + 1 := Nat.max_eq_right (Nat.le_succ id)
    have hentry : (⟨canvasNode label' (id + 1), none, 1,
        .of (canvasNode label' (id + 1)) 0 0, none⟩ : MountedNode ℕ) = canvasEntry label' (id + 1) := by
      rw [canvas_segment _ named, canvasEntry]
    change EStateM.Result.ok () { bare with
      maxSeenNodeId := max id (id + 1)
      nodes := (∅ : FiniteMap ℕ (MountedNode ℕ)).set (id + 1) _ } = _
    rw [hmax]
    exact congrArg (fun e => EStateM.Result.ok () { bare with
      maxSeenNodeId := id + 1
      nodes := (∅ : FiniteMap ℕ (MountedNode ℕ)).set (id + 1) e }) hentry
  have hseeded : (seedNode (canvasNode label' (id + 1))).run g = .ok () g := rfl
  have hinserted : (insertNodes (renamed label' id).nodes (renamedPlan label' id).validated).run bare =
      .ok () g := by
    have once {m : GraphMethod ℕ Unit} {s t : MountedGraph ℕ} (h : m.run s = .ok () t) :
        (m >>= fun _ => pure PUnit.unit).run s = .ok PUnit.unit t := run_bind_ok h
    rw [insertNodes]
    refine (run_bind_ok (once hmounted)).trans ((run_bind_ok (once hseeded)).trans ?_)
    exact once lone_settled
  have hparent : (setParent (renamed label' id).root "validated root"
      (renamedPlan label' id).parentLocation).run g = .ok () g := lone_alter rfl
  have hsegment : (setSegment "validated root"
      ((renamed label' id).root, (renamedPlan label' id).rootSegment)).run g = .ok () g :=
    lone_alter rfl
  have hsize : (query fun g => mountedSize g (renamed label' id).root).run g = .ok 1 g := by
    refine query_ok ?_
    simp [g, renamed, mountedSize, MountedGraph.subtreeSize, lone_get, canvasEntry]
  rw [exchange, run_bind_ok hretired, run_bind_ok hinserted, run_bind_ok hparent,
    run_bind_ok hsegment, run_bind_ok hsize]
  rfl

theorem renamed_finished (other : label ≠ label') :
    (finishInteraction none [id + 1] (sizeCarried label size)).run
      (lone label' (id + 1) (id + 1) ∅) = .ok () (lone label' (id + 1) (id + 1) ∅) := by
  let g := lone label' (id + 1) (id + 1) ∅
  have hnone : (sizeCarried label size).canvasSizes.get [.named 0 label' 0] = none := by
    rw [sizeCarried, FiniteMap.get_set_ne _ _ (by simpa using Ne.symm other)]
    exact FiniteMap.get_empty _
  have hrestored : (restoreOne (sizeCarried label size) (id + 1)).run g = .ok () g := by
    rw [restoreOne, run_bind_ok (EStateM.run_get g), lone_node]
    refine (run_bind_ok (query_ok (f := fun g => g.identity (id + 1)) lone_identity)).trans ?_
    rw [hnone]
    rfl
  have hall : (restoreInteraction [id + 1] (sizeCarried label size)).run g = .ok () g := by
    have hsome : ¬(sizeCarried label size).isEmpty = true := by
      intro h
      have hempty := (of_decide_eq_true h).2.2.2.2
      have hget := FiniteMap.get_set_self (∅ : FiniteMap ElementIdentity Size)
        [.named 0 label 0] size
      rw [show (∅ : FiniteMap ElementIdentity Size).set [.named 0 label 0] size = ∅ from hempty,
        FiniteMap.get_empty] at hget
      cases hget
    rw [restoreInteraction, run_bind_ok (EStateM.run_get g)]
    refine (run_bind_ok (m := modify _) (a := ⟨⟩) (t := g) rfl).trans ?_
    refine (run_bind_ok (m := List.forM _ _) (a := ⟨⟩) (t := g) rfl).trans ?_
    rw [if_neg hsome]
    exact run_bind_ok hrestored
  rw [finishInteraction, run_bind_ok hall]
  rfl

theorem renamed_applied (id : ℕ) (size : Size) (named : label' ≠ "") (other : label ≠ label') : ∃ a,
    (apply .sorted (.replace id (id + 1) [canvasNode label' (id + 1)])).run
      (lone label id id (sizeHeard id size)) = .ok a (lone label' (id + 1) (id + 1) ∅) := by
  let g := lone label id id (sizeHeard id size)
  have hplan : (query (planReplacement (renamed label' id))).run g =
      .ok (renamedPlan label' id) g := query_ok (renamed_planned named other)
  have hold : ((renamed label' id).oldRoot.bind g.subtreeSize).getD 0 = 1 := by
    simp [g, renamed, MountedGraph.subtreeSize, lone_get, canvasEntry]
  have hcarried : (carryInteraction (renamedPlan label' id).removedIds).run g =
      .ok (sizeCarried label size) (lone label id id ∅) := renamed_carried
  change ∃ a, (applyReplacement (renamed label' id)).run g = .ok a _
  rw [applyReplacement, run_bind_ok (EStateM.run_get g), run_bind_ok hplan, commitReplacement,
    run_bind_ok (EStateM.run_get g)]
  dsimp only
  rw [hold, run_bind_ok hcarried, run_bind_ok (renamed_exchanged named)]
  exact ⟨_, run_bind_ok (renamed_finished other)⟩

end Renamed

section Witnesses

def quiet : Application Unit ℕ where
  onSize a _ _ := (a, .noChange)
  hashOrder _ := .sorted

def canvasNamed (n : ℕ) : String := String.ofList (List.replicate n 'c')

def relabelling : Application Unit ℕ where
  onSize a id _ := (a, .replace id (id + 1) [canvasNode (canvasNamed (id + 1)) (id + 1)])
  hashOrder _ := .sorted

theorem quiet_accepted {sizeOf : ℕ → Size} {s : Settling Unit ℕ} (n : ℕ)
    (failure : Failure (GraphError ℕ)) : turns sizeOf quiet n s ≠ .rejected failure := by
  have one (s : Settling Unit ℕ) : turn sizeOf quiet s ≠ .rejected failure := by
    unfold turn
    split
    · split <;> rintro ⟨⟩
    · split
      · rintro ⟨⟩
      · unfold hear
        split
        · rintro ⟨⟩
        · dsimp only
          split
          · rintro ⟨⟩
          · split
            · rename_i hrun
              cases hrun
            · rintro ⟨⟩
  induction n generalizing s with
  | zero => rintro ⟨⟩
  | succ n ih =>
    rw [turns]
    split
    · exact ih
    · exact one s

def namedCanvas : Patch ℕ := .mount 1 [canvasNode (canvasNamed 1) 1]

theorem named_canvas_reachable : Reachable (accepting ℕ) (lone (canvasNamed 1) 1 1 ∅) := by
  have hgraph : afterPatch .empty namedCanvas = lone (canvasNamed 1) 1 1 ∅ := by decide +kernel
  rw [← hgraph]
  exact reachable_step (reachable_initial _) (accepted_step namedCanvas (by decide +kernel))

/-- An application that changes nothing lets the settling end. -/
theorem quiet_settles : (∃ n, Ended (fun _ => (400, 300))
      (turns (fun _ => (400, 300)) quiet n (starting (lone (canvasNamed 1) 1 1 ∅) ()))) ↔
    (askingAlong (fun _ => (400, 300)) quiet (starting (lone (canvasNamed 1) 1 1 ∅) ())).Finite :=
  settles_iff named_canvas_reachable .empty (fun _ => (400, 300)) quiet () quiet_accepted

theorem named_inj {n m : ℕ} (h : canvasNamed n = canvasNamed m) : n = m := by
  have := congrArg List.length (String.ofList_inj.mp h)
  simpa using this

structure Unheard (n : ℕ) (s : Settling Unit ℕ) : Prop where
  graph : s.graph = lone (canvasNamed n) n n ∅
  between : s.pending = []
  heard : ∀ m, n ≤ m → s.heard.get [.named 0 (canvasNamed m) 0] = none

theorem unheard_next (sizeOf : ℕ → Size) {n : ℕ} {s : Settling Unit ℕ} (h : Unheard n s) :
    ∃ t u, turn sizeOf relabelling s = .running t ∧ turn sizeOf relabelling t = .running u ∧
      Unheard (n + 1) u := by
  obtain ⟨graph, app, heard, pending⟩ := s
  obtain ⟨rfl, rfl, fresh⟩ := h
  dsimp only at fresh
  have hpending : pendingSizes sizeOf (lone (canvasNamed n) n n ∅) = .ok [(n, sizeOf n)] := by
    have hnone : (lone (canvasNamed n) n n ∅).interaction.canvasSizes.get n = none :=
      FiniteMap.get_empty n
    rw [pendingSizes, lone_presented]
    simp [pendingSize, hnone, bind, Except.bind, pure, Except.pure]
  have hreport : reportCanvasSize (lone (canvasNamed n) n n ∅) n (sizeOf n) =
      (true, lone (canvasNamed n) n n (sizeHeard n (sizeOf n))) := by
    have asks : asksSize (lone (canvasNamed n) n n ∅) n = true := by
      rw [asksSize, lone_node]
      rfl
    have hnone : (lone (canvasNamed n) n n ∅).interaction.canvasSizes.get n = none :=
      FiniteMap.get_empty n
    rw [reportCanvasSize, if_pos asks, hnone]
    rfl
  have named : canvasNamed (n + 1) ≠ "" := fun h => by cases named_inj (m := 0) h
  have other : canvasNamed n ≠ canvasNamed (n + 1) := fun h => by
    have := named_inj h
    omega
  obtain ⟨a, hrun⟩ := renamed_applied n (sizeOf n) named other
  let t : Settling Unit ℕ := ⟨lone (canvasNamed n) n n ∅, app, heard, [(n, sizeOf n)]⟩
  let u : Settling Unit ℕ := ⟨lone (canvasNamed (n + 1)) (n + 1) (n + 1) ∅, app,
    heard.set [.named 0 (canvasNamed n) 0] 1, []⟩
  refine ⟨t, u, ?_, ?_, rfl, rfl, fun m hm => ?_⟩
  · simp only [turn, hpending, t]
  · have hidentity : (lone (canvasNamed n) n n (sizeHeard n (sizeOf n))).identity n =
        (.ok [.named 0 (canvasNamed n) 0] : Reading ℕ _) := lone_identity
    simp only [turn, t, hreport, hear, hidentity, fresh n (Nat.le_refl n), Option.getD_none,
      relabelling, hrun]
    rfl
  · rw [FiniteMap.get_set_ne, fresh m (by omega)]
    intro h
    have := named_inj (n := m) (m := n) (by simpa using h)
    omega

theorem relabelled_runs (sizeOf : ℕ → Size) {n : ℕ} {s : Settling Unit ℕ} (h : Unheard n s)
    (k : ℕ) : ∃ t, turns sizeOf relabelling k s = .running t := by
  induction k using Nat.strongRecOn generalizing n s with
  | ind k ih =>
    obtain ⟨t, u, ht, hu, next⟩ := unheard_next sizeOf h
    match k with
    | 0 => exact ⟨s, rfl⟩
    | 1 => exact ⟨t, by rw [turns, ht]; rfl⟩
    | k + 2 =>
      obtain ⟨v, hv⟩ := ih k (by omega) next
      exact ⟨v, by rw [turns, ht]; dsimp only; rw [turns, hu]; exact hv⟩

/-- A canvas that takes another name each time hears its size without end. -/
theorem relabelled_never_settles : Reachable (accepting ℕ) (lone (canvasNamed 1) 1 1 ∅) ∧
    ∀ sizeOf n, ∃ s, turns sizeOf relabelling n (starting (lone (canvasNamed 1) 1 1 ∅) ()) =
      .running s :=
  ⟨named_canvas_reachable, fun sizeOf =>
    relabelled_runs sizeOf (n := 1) ⟨rfl, rfl, fun _ _ => FiniteMap.get_empty _⟩⟩

end Witnesses

end CanvasSettling
