import RocGui.DialogRegions
import RocGui.Popovers

/-! What a patch does to hover and popover state: what retired nodes held passes to the
staged nodes of the same identity. -/
namespace PopoverCarries

open FiniteMaps Methods KeyedOrder GraphState FragmentValidation GraphPatches FragmentTrees
open GraphMounting GraphFrames Popovers

variable {K : Type}

/-- The sets of nodes in the interaction state. -/
inductive Hold where
  | hovered | pending | shown | focusWithin
  deriving DecidableEq

def heldBy (i : Interaction) : Hold → Finset ℕ
  | .hovered => i.hovered
  | .pending => i.popovers.pending
  | .shown => i.popovers.shown
  | .focusWithin => i.popovers.focusWithin

def carriedBy (carry : InteractionCarry) : Hold → Finset ElementIdentity
  | .hovered => carry.hovered
  | .pending => carry.pending
  | .shown => carry.shown
  | .focusWithin => carry.focusWithin

section Identities

variable {g g' : MountedGraph K}

theorem identity_from_congr (h : g'.nodes = g.nodes) (fuel : ℕ) (current : Option ℕ) :
    (g'.identityFrom fuel current : Reading K _) = g.identityFrom fuel current := by
  induction fuel generalizing current with
  | zero => cases current <;> rfl
  | succ fuel ih =>
    cases current with
    | none => rfl
    | some id =>
      rw [MountedGraph.identityFrom, MountedGraph.identityFrom, h]
      simp only [ih]

theorem nodes_of_withoutInteraction (h : withoutInteraction g' = withoutInteraction g) :
    g'.nodes = g.nodes :=
  show (withoutInteraction g').nodes = (withoutInteraction g).nodes from
    congrArg MountedGraph.nodes h

theorem identity_congr (h : withoutInteraction g' = withoutInteraction g) (x : ℕ) :
    (g'.identity x : Reading K _) = g.identity x := by
  have hnodes := nodes_of_withoutInteraction h
  rw [MountedGraph.identity, MountedGraph.identity, MountedGraph.climb, MountedGraph.climb, hnodes,
    identity_from_congr hnodes]

theorem node_congr (h : withoutInteraction g' = withoutInteraction g) : g'.node = g.node := by
  funext x
  rw [MountedGraph.node, MountedGraph.node, nodes_of_withoutInteraction h]

theorem presents_congr (h : withoutInteraction g' = withoutInteraction g) (x : ℕ) :
    g'.presents x = g.presents x := by
  rw [MountedGraph.presents, MountedGraph.presents, node_congr h]

end Identities

section Carrying

variable {g g' : MountedGraph K} {carry carry' : InteractionCarry} {id : ℕ}

theorem note_serial {i : Interaction} (h : (noteSerial i id carry).run g = .ok carry' g') :
    g' = g ∧ carriedBy carry' = carriedBy carry := by
  unfold noteSerial at h
  split at h
  · obtain ⟨rfl, rfl⟩ := pure_ok.mp h
    exact ⟨rfl, rfl⟩
  · simp only [bind_ok, query_run_ok, pure_ok] at h
    obtain ⟨identity, _, ⟨-, rfl⟩, rfl, rfl⟩ := h
    refine ⟨rfl, funext fun hold => ?_⟩
    cases hold <;> rfl

theorem note_size {i : Interaction} (h : (noteSize i id carry).run g = .ok carry' g') :
    g' = g ∧ carriedBy carry' = carriedBy carry := by
  unfold noteSize at h
  split at h
  · obtain ⟨rfl, rfl⟩ := pure_ok.mp h
    exact ⟨rfl, rfl⟩
  · simp only [bind_ok, query_run_ok, pure_ok] at h
    obtain ⟨identity, _, ⟨-, rfl⟩, rfl, rfl⟩ := h
    refine ⟨rfl, funext fun hold => ?_⟩
    cases hold <;> rfl

theorem mem_noteIf {present : Bool} {identity path : ElementIdentity}
    {carried : Finset ElementIdentity} : path ∈ noteIf present identity carried ↔
      path ∈ carried ∨ present = true ∧ identity = path := by
  unfold noteIf
  cases present with
  | false => simp
  | true => simp [or_comm, eq_comm]

theorem note_edges {i : Interaction} (h : (noteEdges i id carry).run g = .ok carry' g') :
    g' = g ∧ ∀ hold path, path ∈ carriedBy carry' hold ↔ path ∈ carriedBy carry hold ∨
      id ∈ heldBy i hold ∧ (g.identity id : Reading K _) = .ok path := by
  unfold noteEdges at h
  split at h
  · simp only [bind_ok, query_run_ok, pure_ok] at h
    obtain ⟨identity, _, ⟨hidentity, rfl⟩, rfl, rfl⟩ := h
    refine ⟨rfl, fun hold path => ?_⟩
    rw [hidentity, Except.ok.injEq]
    cases hold <;> simp only [carriedBy, mem_noteIf, decide_eq_true_eq, heldBy]
  · rename_i hnone
    obtain ⟨rfl, rfl⟩ := pure_ok.mp h
    refine ⟨rfl, fun hold path => (or_iff_left fun hheld => hnone ?_).symm⟩
    cases hold with
    | hovered => exact .inl hheld.1
    | shown => exact .inr (.inl hheld.1)
    | pending => exact .inr (.inr (.inl hheld.1))
    | focusWithin => exact .inr (.inr (.inr hheld.1))

structure Carried (g g' : MountedGraph K) (carry carry' : InteractionCarry) (removed : List ℕ) :
    Prop where
  structural : withoutInteraction g' = withoutInteraction g
  left : ∀ hold x, x ∈ heldBy g'.interaction hold ↔ x ∈ heldBy g.interaction hold ∧ x ∉ removed
  taken : ∀ hold path, path ∈ carriedBy carry' hold ↔ path ∈ carriedBy carry hold ∨
    ∃ r ∈ removed, r ∈ heldBy g.interaction hold ∧ (g.identity r : Reading K _) = .ok path

theorem carry_one_edges (h : (carryOne carry id).run g = .ok carry' g') :
    Carried g g' carry carry' [id] := by
  simp only [carryOne, bind_ok, get_ok, modify_ok, pure_ok] at h
  obtain ⟨_, _, ⟨rfl, rfl⟩, c1, t1, h1, c2, t2, h2, c3, t3, h3, _, t4, rfl, rfl, rfl⟩ := h
  obtain ⟨rfl, hc1⟩ := note_serial h1
  obtain ⟨rfl, hc2⟩ := note_size h2
  obtain ⟨rfl, hc3⟩ := note_edges h3
  refine ⟨rfl, fun hold x => ?_, fun hold path => ?_⟩
  · cases hold <;>
      simp only [heldBy, Interaction.forget, Finset.mem_erase, List.mem_singleton, and_comm]
  · rw [hc3, hc2, hc1]
    simp

theorem carry_edges {removed : List ℕ}
    (h : (removed.foldlM carryOne carry).run g = .ok carry' g') :
    Carried g g' carry carry' removed := by
  induction removed generalizing g carry with
  | nil =>
    obtain ⟨rfl, rfl⟩ := foldlM_nil_ok.mp h
    exact ⟨rfl, by simp, by simp⟩
  | cons id rest ih =>
    obtain ⟨next, t, hone, hrest⟩ := foldlM_cons_ok.mp h
    have one := carry_one_edges hone
    have all := ih hrest
    refine ⟨all.structural.trans one.structural, fun hold x => ?_, fun hold path => ?_⟩
    · rw [all.left, one.left, List.mem_singleton, List.mem_cons, not_or, and_assoc]
    · rw [all.taken, one.taken, or_assoc]
      refine or_congr_right ?_
      simp only [List.mem_cons, List.not_mem_nil, or_false, exists_eq_or_imp, exists_eq_left,
        one.left, identity_congr one.structural]
      constructor
      · rintro (hid | ⟨r, hr, hheld, hpath⟩)
        · exact .inl hid
        · exact .inr ⟨r, hr, hheld.1, hpath⟩
      · rintro (hid | ⟨r, hr, hheld, hpath⟩)
        · exact .inl hid
        · by_cases heq : r = id
          · exact .inl (heq ▸ ⟨hheld, hpath⟩)
          · exact .inr ⟨r, hr, ⟨hheld, heq⟩, hpath⟩

end Carrying

section Restoring

variable {g g' : MountedGraph K} {carry : InteractionCarry} {id : ℕ}

def Adopts (g : MountedGraph K) (carry : InteractionCarry) (hold : Hold) (x : ℕ) : Prop :=
  tracksHover g x = true ∧ (hold ≠ .hovered → g.presents x = true) ∧
    ∃ path, (g.identity x : Reading K _) = .ok path ∧ path ∈ carriedBy carry hold

theorem adopts_congr (h : withoutInteraction g' = withoutInteraction g) (hold : Hold) (x : ℕ) :
    Adopts g' carry hold x ↔ Adopts g carry hold x := by
  simp only [Adopts, tracksHover, node_congr h, presents_congr h, identity_congr h]

theorem request_focus (region : ℕ) {c : (Hold → Finset ℕ) × MountedGraph K} :
    Preserves (fun g => (heldBy g.interaction, withoutInteraction g) = c)
      (requestFocus carry region : GraphMethod K _) := by
  refine preserves_bind preserves_get fun g => ?_
  dsimp only
  split
  · exact preserves_bind (preserves_query _) fun _ => preserves_modify fun g h => h ▸
      Prod.ext (funext fun hold => by cases hold <;> rfl) rfl
  · exact preserves_pure ()

theorem mem_adopt {presents : Bool} {identity : ElementIdentity} {i : Interaction} {hold : Hold}
    {x : ℕ} : x ∈ heldBy (adopt carry presents id identity i) hold ↔ x ∈ heldBy i hold ∨
      x = id ∧ (hold ≠ .hovered → presents = true) ∧ identity ∈ carriedBy carry hold := by
  have one (held : Finset ℕ) (carried : Finset ElementIdentity) :
      x ∈ (if identity ∈ carried then insert id held else held) ↔
        x ∈ held ∨ x = id ∧ identity ∈ carried := by
    by_cases hcarried : identity ∈ carried <;> simp [hcarried, or_comm]
  cases hold with
  | hovered => simpa [heldBy, adopt, carriedBy] using one i.hovered carry.hovered
  | pending =>
    cases presents with
    | false => simp [heldBy, adopt]
    | true => simpa [heldBy, adopt, carriedBy] using one i.popovers.pending carry.pending
  | shown =>
    cases presents with
    | false => simp [heldBy, adopt]
    | true => simpa [heldBy, adopt, carriedBy] using one i.popovers.shown carry.shown
  | focusWithin =>
    cases presents with
    | false => simp [heldBy, adopt]
    | true => simpa [heldBy, adopt, carriedBy] using one i.popovers.focusWithin carry.focusWithin

structure Restored (g g' : MountedGraph K) (carry : InteractionCarry) (staged : List ℕ) : Prop where
  structural : withoutInteraction g' = withoutInteraction g
  held : ∀ hold x, x ∈ heldBy g'.interaction hold ↔ x ∈ heldBy g.interaction hold ∨
    x ∈ staged ∧ Adopts g carry hold x

theorem restore_nothing (h : tracksHover g id = false) : Restored g g carry [id] := by
  refine ⟨rfl, fun hold x => (or_iff_left fun hx => ?_).symm⟩
  obtain ⟨hmem, htracks, -⟩ := hx
  rw [List.mem_singleton.mp hmem, h] at htracks
  cases htracks

theorem restore_one {u : Unit} (h : (restoreOne carry id).run g = .ok u g') :
    Restored g g' carry [id] := by
  simp only [restoreOne, bind_ok, get_ok] at h
  obtain ⟨_, _, ⟨rfl, rfl⟩, h⟩ := h
  have tracks_eq {kind : NodeKind K} (hk : (g.node id).map Node.kind = some kind) :
      tracksHover g id = kind.tracksHover := by
    obtain ⟨n, hn, rfl⟩ := Option.map_eq_some_iff.mp hk
    rw [tracksHover, hn]
    rfl
  split at h
  · rename_i hk
    obtain ⟨-, rfl⟩ := pure_ok.mp h
    refine restore_nothing ?_
    rw [Option.map_eq_none_iff] at hk
    rw [tracksHover, hk]
    rfl
  · rename_i hk
    simp only [bind_ok, query_run_ok] at h
    obtain ⟨identity, _, ⟨-, rfl⟩, h⟩ := h
    have nothing : tracksHover g id = false → Restored g g carry [id] := restore_nothing
    replace nothing := nothing (tracks_eq hk)
    split at h
    · obtain rfl := modify_ok.mp h
      refine ⟨rfl, fun hold x => ?_⟩
      rw [← nothing.held]
      cases hold <;> rfl
    · obtain ⟨-, rfl⟩ := pure_ok.mp h
      exact nothing
  · rename_i kind _ hk
    split at h
    · rename_i htracks
      obtain ⟨-, rfl⟩ := pure_ok.mp h
      exact restore_nothing (by rw [tracks_eq hk]; simpa using htracks)
    · rename_i htracks
      simp only [bind_ok, query_run_ok, modify_ok] at h
      obtain ⟨identity, _, ⟨hidentity, rfl⟩, rfl⟩ := h
      refine ⟨rfl, fun hold x => ?_⟩
      have htracks : tracksHover g id = true := by
        rw [tracks_eq hk]
        simpa using htracks
      rw [mem_adopt, List.mem_singleton]
      refine or_congr_right (and_congr_right fun hx => ?_)
      rw [hx, Adopts, htracks, hidentity]
      simp

theorem restore_each {staged : List ℕ} {u : PUnit}
    (h : (staged.forM (restoreOne carry)).run g = .ok u g') : Restored g g' carry staged := by
  induction staged generalizing g with
  | nil =>
    obtain rfl := forM_nil_ok.mp h
    exact ⟨rfl, by simp⟩
  | cons id rest ih =>
    obtain ⟨t, hone, hrest⟩ := forM_cons_ok.mp h
    have one := restore_one hone
    have all := ih hrest
    refine ⟨all.structural.trans one.structural, fun hold x => ?_⟩
    rw [all.held, one.held, adopts_congr one.structural, or_assoc, List.mem_singleton,
      List.mem_cons, or_and_right]

theorem restore_edges {staged : List ℕ} {u : Unit}
    (h : (restoreInteraction staged carry).run g = .ok u g') : Restored g g' carry staged := by
  simp only [restoreInteraction, bind_ok, get_ok, modify_ok] at h
  obtain ⟨_, _, ⟨rfl, rfl⟩, _, t, rfl, _, t', hrequests, h⟩ := h
  have same := kept_of_preserves (φ := fun g => (heldBy g.interaction, withoutInteraction g))
    (fun c => preserves_forM (fun region => request_focus region) _) hrequests
  obtain ⟨hheld, hstructural⟩ := Prod.mk.inj same
  have hstructural : withoutInteraction t' = withoutInteraction g := hstructural
  have held_start (hold : Hold) : heldBy t'.interaction hold = heldBy g.interaction hold := by
    rw [hheld]
    cases hold <;> rfl
  split at h
  · rename_i hempty
    obtain ⟨-, rfl⟩ := pure_ok.mp h
    refine ⟨hstructural, fun hold x => ?_⟩
    rw [held_start, or_iff_left]
    rintro ⟨-, -, -, path, -, hpath⟩
    obtain ⟨h1, h2, h3, h4, -⟩ := of_decide_eq_true hempty
    cases hold <;> simp_all [carriedBy]
  · have all := restore_each h
    refine ⟨all.structural.trans hstructural, fun hold x => ?_⟩
    rw [all.held, held_start, adopts_congr hstructural]

end Restoring

section Exchanging

variable {c : Hold → Finset ℕ}

/-- No structural edit reads or writes what the nodes hold. -/
abbrev Unheld {α : Type} (c : Hold → Finset ℕ) (m : GraphMethod K α) : Prop :=
  Preserves (fun g => heldBy g.interaction = c) m

theorem unheld_alter (message : String) (id : ℕ) (f : MountedNode K → MountedNode K) :
    Unheld c (alter message id f) :=
  preserves_bind preserves_get fun _ => preserves_bind (preserves_expect _ _) fun _ =>
    preserves_modify fun _ h => h

theorem unheld_plain (message : String) (id : ℕ) (f : MountedNode K → MountedNode K)
    (_ : Plain f) : Unheld c (alter message id f) := unheld_alter message id f

theorem unheld_segment (message : String) (child : ℕ × IdentitySegment) :
    Unheld c (setSegment message child : GraphMethod K _) := unheld_alter message child.1 _

theorem unheld_modify {f : MountedGraph K → MountedGraph K}
    (same : ∀ g hold, heldBy (f g).interaction hold = heldBy g.interaction hold) :
    Unheld c (modify f : GraphMethod K PUnit) :=
  preserves_modify fun g h => (funext (same g)).trans h

theorem unheld_retire (message : String) (instances : List ℕ) (id : ℕ) :
    Unheld c (retire message instances id : GraphMethod K _) := by
  refine preserves_bind preserves_get fun _ => preserves_bind (preserves_expect _ _) fun _ =>
    preserves_bind (preserves_modify fun _ h => h) fun _ => ?_
  split
  · exact preserves_bind (preserves_modify fun _ h => h) fun _ => preserves_pure _
  · exact preserves_bind (preserves_modify fun _ h => h) fun _ => preserves_pure _
  · exact preserves_bind (preserves_modify fun _ h => h) fun _ => preserves_pure _
  · exact preserves_pure _

theorem unheld_mount (validated : ValidatedFragment K) (node : Node K) :
    Unheld c (mountNode validated node) := by
  refine preserves_bind (preserves_bind (preserves_modify fun _ h => h) fun _ => ?_) fun _ =>
    preserves_modify fun _ h => h
  split
  · exact preserves_modify fun _ h => h
  · exact preserves_bind (preserves_expect _ _) fun _ => preserves_modify fun _ h => h
  · exact preserves_modify fun _ h => h
  · exact unheld_modify fun g hold => by cases hold <;> rfl
  · split
    · exact unheld_modify fun g hold => by cases hold <;> rfl
    · exact preserves_pure ()
  · exact preserves_pure ()

variable [DecidableEq K]

theorem unheld_insert (nodes : List (Node K)) (validated : ValidatedFragment K) :
    Unheld c (insertNodes nodes validated) :=
  preserves_bind (preserves_forM (unheld_mount validated) _) fun _ =>
    preserves_bind (preserves_forM (frame_seed unheld_plain) _) fun _ =>
    preserves_forM (frame_settle unheld_plain unheld_segment) _

theorem unheld_exchange (r : Replacement K) (plan : ReplacementPlan K) (oldSize : ℕ) :
    Unheld c (exchange r plan oldSize) :=
  preserves_bind (preserves_foldlM (fun _ _ => unheld_retire _ _ _) _ _) fun _ =>
    preserves_bind (unheld_insert _ _) fun _ => preserves_bind (unheld_alter _ _ _) fun _ =>
    preserves_bind (unheld_alter _ _ _) fun _ => preserves_bind (preserves_query _) fun _ =>
    preserves_bind (frame_attach unheld_plain unheld_segment (fun _ _ h => h) _ _ _ _) fun _ =>
    preserves_pure _

theorem unheld_exchangeKeyed (container : ℕ) (order : KeyedChildOrder K)
    (prepared : PreparedFragments K) (oldSize keyedSize : ℕ) :
    Unheld c (exchangeKeyed container order prepared oldSize keyedSize) :=
  preserves_bind (preserves_foldlM (fun _ _ => unheld_retire _ _ _) _ _) fun _ =>
    preserves_bind (preserves_forM (fun _ => preserves_bind (unheld_insert _ _) fun _ =>
      preserves_bind (preserves_expect _ _) fun _ => unheld_alter _ _ _) _) fun _ =>
    preserves_bind (frame_container unheld_plain _ _ _) fun _ =>
    preserves_bind (unheld_alter _ _ _) fun _ => preserves_pure _

end Exchanging

section Finishing

variable {g g' : MountedGraph K} {carry : InteractionCarry}

theorem mem_blocked {dialog : ℕ} {ids blocked : List ℕ}
    (h : blockedBy g dialog ids = .ok blocked) {x : ℕ} (hx : x ∈ ids) (hout : x ∉ blocked) :
    (g.isDescendantOf x dialog : Reading K _) = .ok true := by
  induction ids generalizing blocked with
  | nil => cases hx
  | cons id rest ih =>
    rw [blockedBy] at h
    obtain ⟨inside, hinside, h⟩ := except_bind_ok.mp h
    obtain ⟨others, hothers, h⟩ := except_bind_ok.mp h
    obtain rfl := Except.ok.inj h
    cases inside with
    | true =>
      rcases List.mem_cons.mp hx with rfl | hx
      · exact hinside
      · exact ih hothers hx (by simpa using hout)
    | false =>
      rw [if_neg Bool.false_ne_true, List.mem_cons, not_or] at hout
      exact ih hothers ((List.mem_cons.mp hx).resolve_left hout.1) hout.2

/-- The state that restoring leaves is the last, or a new dialog takes out of it what
does not lie inside. -/
structure Finished (t v : MountedGraph K) (previous : Option ℕ) : Prop where
  structural : withoutInteraction v = withoutInteraction t
  last : v.interaction = t.interaction ∧ (v.dialog = none ∨ v.dialog = previous) ∨
    ∃ blocked : Finset ℕ, v.interaction = Interaction.block blocked t.interaction ∧
      ∀ hold x, x ∈ heldBy t.interaction hold → x ∉ blocked → ∀ d, v.dialog = some d →
        (v.isDescendantOf x d : Reading K _) = .ok true

theorem descendant_from_congr (h : g'.nodes = g.nodes) (d fuel x : ℕ) :
    (g'.descendantFrom d fuel x : Reading K _) = g.descendantFrom d fuel x := by
  induction fuel generalizing x with
  | zero => rfl
  | succ fuel ih =>
    rw [MountedGraph.descendantFrom, MountedGraph.descendantFrom, MountedGraph.parentLocation,
      MountedGraph.parentLocation, h]
    simp only [ih]

theorem descendant_congr (h : withoutInteraction g' = withoutInteraction g) (x d : ℕ) :
    (g'.isDescendantOf x d : Reading K _) = g.isDescendantOf x d := by
  have hnodes := nodes_of_withoutInteraction h
  rw [MountedGraph.isDescendantOf, MountedGraph.isDescendantOf, MountedGraph.climb,
    MountedGraph.climb, hnodes, descendant_from_congr hnodes]

theorem finish_edges {previous : Option ℕ} {staged : List ℕ} {u : Unit}
    (h : (finishInteraction previous staged carry).run g = .ok u g') :
    ∃ t, Restored g t carry staged ∧ Finished t g' previous := by
  simp only [finishInteraction, bind_ok, get_ok] at h
  obtain ⟨_, t, hrestore, _, _, ⟨rfl, rfl⟩, h⟩ := h
  refine ⟨t, restore_edges hrestore, ?_⟩
  cases hd : t.dialog with
  | none =>
    rw [hd] at h
    obtain ⟨-, rfl⟩ := pure_ok.mp h
    exact ⟨rfl, .inl ⟨rfl, .inl hd⟩⟩
  | some d =>
    simp only [hd] at h
    split at h
    · simp only [retireBehindDialog, bind_ok, get_ok, query_run_ok, modify_ok] at h
      obtain ⟨_, _, ⟨rfl, rfl⟩, blocked, _, ⟨hblocked, rfl⟩, rfl⟩ := h
      refine ⟨rfl, .inr ⟨blocked.toFinset, rfl, fun hold x hx hout d' hd' => ?_⟩⟩
      obtain rfl : d = d' := Option.some.inj (hd.symm.trans hd')
      refine (descendant_congr (g := t) ?_ x d).trans ?_
      · rfl
      refine mem_blocked hblocked (mem_ascending.mpr ?_) (by simpa using hout)
      simp only [Finset.mem_union]
      cases hold with
      | hovered => exact .inl (.inl (.inl hx))
      | shown => exact .inl (.inl (.inr hx))
      | pending => exact .inl (.inr hx)
      | focusWithin => exact .inr hx
    · rename_i hsame
      obtain ⟨-, rfl⟩ := pure_ok.mp h
      exact ⟨rfl, .inl ⟨rfl, .inr (hd.trans (not_not.mp hsame))⟩⟩

end Finishing

section Patches

variable [DecidableEq K] {g v : MountedGraph K}

/-- A retired node and a staged one of the same identity. -/
def Heir (g v : MountedGraph K) (retired staged : ℕ) : Prop := ∃ path,
  (g.identity retired : Reading K _) = .ok path ∧ (v.identity staged : Reading K _) = .ok path

structure Handed (start v t : MountedGraph K) (removed staged : List ℕ) (previous : Option ℕ) :
    Prop where
  held : ∀ hold x, x ∈ heldBy t.interaction hold ↔
    x ∈ heldBy start.interaction hold ∧ x ∉ removed ∨ x ∈ staged ∧ tracksHover v x = true ∧
      (hold ≠ .hovered → v.presents x = true) ∧
      ∃ r ∈ removed, r ∈ heldBy start.interaction hold ∧ Heir start v r x
  finished : Finished t v previous

omit [DecidableEq K] in
theorem handed {start g0 g1 t v : MountedGraph K} {carried : InteractionCarry}
    {removed staged : List ℕ} {previous : Option ℕ}
    (hcarry : Carried start g0 .empty carried removed)
    (same : heldBy g1.interaction = heldBy g0.interaction) (restored : Restored g1 t carried staged)
    (finished : Finished t v previous) : Handed start v t removed staged previous := by
  refine ⟨fun hold x => ?_, finished⟩
  have hstructural := finished.structural.trans restored.structural
  have taken (path : ElementIdentity) : path ∈ carriedBy carried hold ↔
      ∃ r ∈ removed, r ∈ heldBy start.interaction hold ∧
        (start.identity r : Reading K _) = .ok path := by
    rw [hcarry.taken, or_iff_right]
    cases hold <;> exact Finset.notMem_empty path
  rw [restored.held, same, hcarry.left, ← adopts_congr hstructural, Adopts]
  refine or_congr_right (and_congr_right fun _ => and_congr_right fun _ =>
    and_congr_right fun _ => ?_)
  constructor
  · rintro ⟨path, hpath, hmem⟩
    obtain ⟨r, hr, hheld, hpath'⟩ := (taken path).mp hmem
    exact ⟨r, hr, hheld, path, hpath', hpath⟩
  · rintro ⟨r, hr, hheld, path, hpath', hpath⟩
    exact ⟨path, hpath, (taken path).mpr ⟨r, hr, hheld, hpath'⟩⟩

theorem replacement_handed {r : Replacement K} {plan : ReplacementPlan K} {a : GraphApply K}
    (hplan : planReplacement r g = .ok plan) (hrun : (applyReplacement r).run g = .ok a v) :
    ∃ t, Handed g v t plan.removedIds (ids r.nodes) g.dialog := by
  simp only [applyReplacement, commitReplacement, bind_ok, get_ok, query_run_ok, pure_ok] at hrun
  obtain ⟨_, _, ⟨rfl, rfl⟩, plan', _, ⟨hplan', rfl⟩, _, _, ⟨rfl, rfl⟩, carried, g0, hcarry, ended, g1,
    hexchange, _, g2, hfinish, _, _, ⟨rfl, rfl⟩, -, rfl⟩ := hrun
  obtain rfl := Except.ok.inj (hplan.symm.trans hplan')
  have same := kept_of_preserves (fun c => unheld_exchange r plan _) hexchange
  obtain ⟨t, restored, finished⟩ := finish_edges hfinish
  exact ⟨t, handed (carry_edges hcarry) same restored finished⟩

theorem commit_handed {container newRevision : ℕ} {start : MountedGraph K}
    {prepared : PreparedFragments K} {j : KeyedOrderJournal K} {a : KeyedGraphApply K}
    {previous : Option ℕ}
    (hcommit : (commitKeyed container newRevision j prepared previous).run start = .ok a v) :
    ∃ t, Handed start v t prepared.removedIds (ids prepared.nodes) previous := by
  simp only [commitKeyed, bind_ok, query_run_ok, pure_ok] at hcommit
  obtain ⟨oldSize, _, ⟨hsize, rfl⟩, carried, g0, hcarry, ended, g1, hexchange, _, g2, hfinish, -,
    rfl⟩ := hcommit
  have same := kept_of_preserves (fun c => unheld_exchangeKeyed _ _ _ _ _) hexchange
  obtain ⟨t, restored, finished⟩ := finish_edges hfinish
  exact ⟨t, handed (carry_edges hcarry) same restored finished⟩

end Patches

end PopoverCarries
