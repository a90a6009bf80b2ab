import RocGui.CanvasSettling
import RocGui.FocusWithin

/-! What a rebuild does to the state that pointer, focus and layout keep by node: what retired
nodes held or had recorded passes to the staged nodes of the same identity. -/
namespace InteractionCarries

open FiniteMaps Methods KeyedOrder GraphState FragmentValidation GraphPatches FragmentTrees
open GraphForests GraphMounting GraphFrames GraphGrafts GraphIdentities GraphReplacements
open GraphRuns KeyedStaging KeyedTransactions KeyedIdentities ElementIdentities IdentityPaths
open DialogRegions Popovers
open PopoverCarries PopoverRuns FocusSearches Transitions

variable {K : Type}

section Tables

variable {β : Type} {named : ℕ → ElementIdentity → Prop} {start now : FiniteMap ℕ β}
  {carried carried' : FiniteMap ElementIdentity β} {done : List ℕ} {id : ℕ}

/-- What retiring `done` has left of a table by node, and what is carried of it by identity. -/
structure Taken (named : ℕ → ElementIdentity → Prop) (start now : FiniteMap ℕ β)
    (carried : FiniteMap ElementIdentity β) (done : List ℕ) : Prop where
  left : ∀ x value, now.get x = some value ↔ start.get x = some value ∧ x ∉ done
  taken : ∀ path value, carried.get path = some value ↔
    ∃ r ∈ done, start.get r = some value ∧ named r path

/-- The entry of `id` is noted under its identity. -/
def Noted (named : ℕ → ElementIdentity → Prop) (held : Option β) (id : ℕ)
    (carried carried' : FiniteMap ElementIdentity β) : Prop :=
  match held with
  | none => carried' = carried
  | some value => ∃ path, named id path ∧ carried' = carried.set path value

theorem taken_start : Taken named start start ∅ [] := by
  constructor
  · intro x value
    simp
  · intro path value
    simp

theorem taken_noted (apart : ∀ r r' path, named r path → named r' path → r = r')
    (single : ∀ r path path', named r path → named r path' → path = path')
    (t : Taken named start now carried done) (h : Noted named (now.get id) id carried carried') :
    Taken named start (now.remove id) carried' (id :: done) := by
  have left (x : ℕ) (value : β) : (now.remove id).get x = some value ↔
      start.get x = some value ∧ x ∉ id :: done := by
    rw [FiniteMap.get_remove, List.mem_cons, not_or]
    by_cases hx : x = id
    · simp [hx]
    · rw [if_neg hx, t.left]
      exact and_congr_right fun _ => (and_iff_right hx).symm
  refine ⟨left, fun path value => ?_⟩
  cases hnow : now.get id with
  | none =>
    rw [hnow] at h
    obtain rfl : carried' = carried := h
    rw [t.taken]
    constructor
    · rintro ⟨r, hr, hrest⟩
      exact ⟨r, List.mem_cons_of_mem _ hr, hrest⟩
    · rintro ⟨r, hr, hstart, hnamed⟩
      rcases List.mem_cons.mp hr with rfl | hr
      · -- its entry was taken before, so it was retired before
        by_contra hnone
        have hfresh : r ∉ done := fun hr => hnone ⟨r, hr, hstart, hnamed⟩
        rw [(t.left r value).mpr ⟨hstart, hfresh⟩] at hnow
        cases hnow
      · exact ⟨r, hr, hstart, hnamed⟩
  | some own =>
    rw [hnow] at h
    obtain ⟨mine, hmine, rfl⟩ := h
    have hown : start.get id = some own := ((t.left id own).mp hnow).1
    rw [FiniteMap.get_set]
    by_cases hpath : path = mine
    · rw [if_pos hpath, hpath]
      constructor
      · intro hvalue
        exact ⟨id, List.mem_cons_self, hown.trans hvalue, hmine⟩
      · rintro ⟨r, -, hstart, hnamed⟩
        rw [apart r id mine hnamed hmine] at hstart
        exact hown.symm.trans hstart
    · rw [if_neg hpath, t.taken]
      constructor
      · rintro ⟨r, hr, hrest⟩
        exact ⟨r, List.mem_cons_of_mem _ hr, hrest⟩
      · rintro ⟨r, hr, hstart, hnamed⟩
        rcases List.mem_cons.mp hr with rfl | hr
        · exact absurd (single r path mine hnamed hmine) hpath
        · exact ⟨r, hr, hstart, hnamed⟩

theorem taken_congr {done' : List ℕ} (same : ∀ x, x ∈ done' ↔ x ∈ done)
    (t : Taken named start now carried done) : Taken named start now carried done' := by
  constructor
  · intro x value
    rw [t.left, same]
  · intro path value
    rw [t.taken]
    simp only [same]

end Tables

section Carrying

variable {g g' start : MountedGraph K} {carry carry' : InteractionCarry} {id : ℕ} {i : Interaction}

def Named (g : MountedGraph K) (x : ℕ) (path : ElementIdentity) : Prop :=
  (g.identity x : Reading K _) = .ok path

theorem named_single {path path' : ElementIdentity} (h : Named g id path) (h' : Named g id path') :
    path = path' := Except.ok.inj (h.symm.trans h')

theorem named_congr (h : withoutInteraction g' = withoutInteraction g) : Named g' = Named g := by
  funext x path
  rw [Named, Named, identity_congr h]

theorem serial_noted (h : (noteSerial i id carry).run g = .ok carry' g') :
    Noted (Named g) (i.keyboard.serials.get id) id carry.focusSerials carry'.focusSerials ∧
      carry'.canvasSizes = carry.canvasSizes := by
  unfold noteSerial at h
  unfold Noted
  cases hget : i.keyboard.serials.get id with
  | none =>
    rw [hget] at h
    obtain ⟨rfl, -⟩ := pure_ok.mp h
    exact ⟨rfl, rfl⟩
  | some serial =>
    rw [hget] at h
    simp only [bind_ok, query_run_ok, pure_ok] at h
    obtain ⟨identity, _, ⟨hidentity, -⟩, rfl, -⟩ := h
    exact ⟨⟨identity, hidentity, rfl⟩, rfl⟩

theorem size_noted (h : (noteSize i id carry).run g = .ok carry' g') :
    Noted (Named g) (i.canvasSizes.get id) id carry.canvasSizes carry'.canvasSizes ∧
      carry'.focusSerials = carry.focusSerials := by
  unfold noteSize at h
  unfold Noted
  cases hget : i.canvasSizes.get id with
  | none =>
    rw [hget] at h
    obtain ⟨rfl, -⟩ := pure_ok.mp h
    exact ⟨rfl, rfl⟩
  | some size =>
    rw [hget] at h
    simp only [bind_ok, query_run_ok, pure_ok] at h
    obtain ⟨identity, _, ⟨hidentity, -⟩, rfl, -⟩ := h
    exact ⟨⟨identity, hidentity, rfl⟩, rfl⟩

theorem edges_noted (h : (noteEdges i id carry).run g = .ok carry' g') :
    carry'.focusSerials = carry.focusSerials ∧ carry'.canvasSizes = carry.canvasSizes := by
  unfold noteEdges at h
  split at h
  · simp only [bind_ok, query_run_ok, pure_ok] at h
    obtain ⟨identity, _, ⟨-, -⟩, rfl, -⟩ := h
    exact ⟨rfl, rfl⟩
  · obtain ⟨rfl, -⟩ := pure_ok.mp h
    exact ⟨rfl, rfl⟩

/-- What carrying has left of the records and what it takes along. -/
structure Recording (start g : MountedGraph K) (carry : InteractionCarry) (done : List ℕ) : Prop where
  structural : withoutInteraction g = withoutInteraction start
  sizes : Taken (Named start) start.interaction.canvasSizes g.interaction.canvasSizes
    carry.canvasSizes done
  serials : Taken (Named start) start.interaction.keyboard.serials g.interaction.keyboard.serials
    carry.focusSerials done
  requests : g.interaction.keyboard.requests = start.interaction.keyboard.requests
  staged : g.interaction.keyboard.stagedRequests = start.interaction.keyboard.stagedRequests

theorem carry_one_records {done : List ℕ}
    (apart : ∀ r r' path, Named start r path → Named start r' path → r = r')
    (kept : Recording start g carry done) (h : (carryOne carry id).run g = .ok carry' g') :
    Recording start g' carry' (id :: done) := by
  simp only [carryOne, bind_ok, get_ok, modify_ok, pure_ok] at h
  obtain ⟨_, _, ⟨rfl, rfl⟩, c1, t1, h1, c2, t2, h2, c3, t3, h3, _, t4, rfl, rfl, rfl⟩ := h
  obtain rfl := (note_serial h1).1
  obtain rfl := (note_size h2).1
  obtain rfl := (note_edges h3).1
  obtain ⟨hserial, hsizes⟩ := serial_noted h1
  obtain ⟨hsize, hserials⟩ := size_noted h2
  obtain ⟨hserials', hsizes'⟩ := edges_noted h3
  have single (r : ℕ) (path path' : ElementIdentity) (h : Named start r path)
      (h' : Named start r path') : path = path' := named_single h h'
  rw [named_congr kept.structural] at hserial hsize
  rw [hsizes] at hsize
  refine ⟨kept.structural, ?_, ?_, kept.requests, kept.staged⟩
  · rw [hsizes']
    exact taken_noted apart single kept.sizes hsize
  · rw [hserials', hserials]
    exact taken_noted apart single kept.serials hserial

theorem carry_each_records {removed done : List ℕ}
    (apart : ∀ r r' path, Named start r path → Named start r' path → r = r')
    (kept : Recording start g carry done)
    (h : (removed.foldlM carryOne carry).run g = .ok carry' g') :
    Recording start g' carry' (removed.reverse ++ done) := by
  induction removed generalizing g carry done with
  | nil =>
    obtain ⟨rfl, rfl⟩ := foldlM_nil_ok.mp h
    exact kept
  | cons id rest ih =>
    obtain ⟨next, t, hone, hrest⟩ := foldlM_cons_ok.mp h
    rw [List.reverse_cons, List.append_assoc, List.singleton_append]
    exact ih (carry_one_records apart kept hone) hrest

theorem carry_records {removed : List ℕ}
    (apart : ∀ r r' path, Named start r path → Named start r' path → r = r')
    (h : (carryInteraction removed).run start = .ok carry g) : Recording start g carry removed := by
  have kept := carry_each_records apart ⟨rfl, taken_start, taken_start, rfl, rfl⟩ h
  have same (x : ℕ) : x ∈ removed ↔ x ∈ removed.reverse ++ [] := by simp
  exact ⟨kept.structural, taken_congr same kept.sizes, taken_congr same kept.serials, kept.requests,
    kept.staged⟩

end Carrying

section Restoring

variable {g g' : MountedGraph K} {carry : InteractionCarry} {id : ℕ}

/-- The serial a node asks for focus with; 0 never asks. -/
def serialOf : NodeKind K → ℕ
  | .popover _ _ _ _ _ focusSerial => focusSerial
  | _ => 0

def serialAt (g : MountedGraph K) (x : ℕ) : ℕ := ((g.node x).map fun n => serialOf n.kind).getD 0

def Inherits (g : MountedGraph K) (carry : InteractionCarry) (x : ℕ) (size : ℕ × ℕ) : Prop :=
  CanvasSettling.asksSize g x = true ∧ ∃ path, Named g x path ∧ carry.canvasSizes.get path = some size

def Unasked (g : MountedGraph K) (carry : InteractionCarry) (x : ℕ) : Prop :=
  ∃ path, Named g x path ∧ carry.focusSerials.get path ≠ some (serialAt g x)

theorem serial_congr (h : withoutInteraction g' = withoutInteraction g) : serialAt g' = serialAt g := by
  funext x
  rw [serialAt, serialAt, node_congr h]

theorem asks_congr (h : withoutInteraction g' = withoutInteraction g) :
    CanvasSettling.asksSize g' = CanvasSettling.asksSize g := by
  funext x
  rw [CanvasSettling.asksSize, CanvasSettling.asksSize, node_congr h]

theorem inherits_congr (h : withoutInteraction g' = withoutInteraction g) :
    Inherits g' carry = Inherits g carry := by
  funext x size
  rw [Inherits, Inherits, asks_congr h, named_congr h]

theorem unasked_congr (h : withoutInteraction g' = withoutInteraction g) :
    Unasked g' carry = Unasked g carry := by
  funext x
  rw [Unasked, Unasked, serial_congr h, named_congr h]

structure Answering (g g' : MountedGraph K) (carry : InteractionCarry) (regions : List ℕ) : Prop where
  structural : withoutInteraction g' = withoutInteraction g
  sizes : g'.interaction.canvasSizes = g.interaction.canvasSizes
  staged : g'.interaction.keyboard.stagedRequests = g.interaction.keyboard.stagedRequests
  serials : ∀ x serial, g'.interaction.keyboard.serials.get x = some serial ↔
    x ∈ regions ∧ serialAt g x = serial ∨
      x ∉ regions ∧ g.interaction.keyboard.serials.get x = some serial
  requests : ∃ asked, g'.interaction.keyboard.requests = g.interaction.keyboard.requests ++ asked ∧
    asked.Sublist regions ∧ ∀ x ∈ regions, x ∈ asked ↔ Unasked g carry x

theorem region_kind {kind : NodeKind K} (h : serialOf kind ≠ 0) :
    ∃ label delay enter exit shortcuts, kind = .popover label delay enter exit shortcuts (serialOf kind) := by
  cases kind with
  | popover label delay enter exit shortcuts serial => exact ⟨label, delay, enter, exit, shortcuts, rfl⟩
  | _ => exact absurd rfl h

theorem request_one {u : Unit} (hserial : serialAt g id ≠ 0)
    (h : (requestFocus carry id).run g = .ok u g') : Answering g g' carry [id] := by
  obtain ⟨n, hn, hkind⟩ : ∃ n, g.node id = some n ∧ serialOf n.kind = serialAt g id := by
    cases hnode : g.node id with
    | none => exact absurd (by rw [serialAt, hnode]; rfl) hserial
    | some n => exact ⟨n, rfl, by rw [serialAt, hnode]; rfl⟩
  obtain ⟨label, delay, enter, exit, shortcuts, hpopover⟩ := region_kind (hkind ▸ hserial)
  rw [hkind] at hpopover
  simp only [requestFocus, bind_ok, get_ok] at h
  obtain ⟨_, _, ⟨rfl, rfl⟩, h⟩ := h
  rw [hn, Option.map_some, hpopover] at h
  simp only [bind_ok, query_run_ok, modify_ok] at h
  obtain ⟨path, _, ⟨hpath, rfl⟩, rfl⟩ := h
  have hiff : Unasked g carry id ↔ carry.focusSerials.get path ≠ some (serialAt g id) := by
    constructor
    · rintro ⟨path', hpath', hne⟩
      rwa [named_single hpath' hpath] at hne
    · intro hne
      exact ⟨path, hpath, hne⟩
  refine ⟨rfl, rfl, rfl, fun x serial => ?_, ?_⟩
  · dsimp only
    rw [FiniteMap.get_set, List.mem_singleton]
    by_cases hx : x = id
    · rw [hx]
      simp
    · simp [hx]
  · by_cases hbefore : carry.focusSerials.get path = some (serialAt g id)
    · refine ⟨[], by simp [hbefore], List.nil_sublist _, fun x hx => ?_⟩
      rw [List.mem_singleton.mp hx, hiff]
      simp [hbefore]
    · refine ⟨[id], by simp [hbefore], List.Sublist.refl _, fun x hx => ?_⟩
      rw [List.mem_singleton.mp hx, hiff]
      simp [hbefore]

theorem request_each {regions : List ℕ} {u : PUnit} (distinct : regions.Nodup)
    (hserial : ∀ x ∈ regions, serialAt g x ≠ 0)
    (h : (regions.forM (requestFocus carry)).run g = .ok u g') : Answering g g' carry regions := by
  induction regions generalizing g with
  | nil =>
    obtain rfl := forM_nil_ok.mp h
    exact ⟨rfl, rfl, rfl, by simp, [], by simp, List.Sublist.refl _, by simp⟩
  | cons id rest ih =>
    obtain ⟨t, hone, hrest⟩ := forM_cons_ok.mp h
    have one := request_one (hserial id List.mem_cons_self) hone
    have hsame := serial_congr one.structural
    obtain ⟨hnot, distinct⟩ := List.nodup_cons.mp distinct
    have all := ih distinct (fun x hx => hsame ▸ hserial x (List.mem_cons_of_mem _ hx)) hrest
    refine ⟨all.structural.trans one.structural, all.sizes.trans one.sizes, all.staged.trans one.staged,
      fun x serial => ?_, ?_⟩
    · rw [all.serials, one.serials, hsame, List.mem_singleton, List.mem_cons]
      by_cases hx : x = id
      · simp [hx, hnot]
      · simp [hx]
    · obtain ⟨first, hfirst, hsub, hmem⟩ := one.requests
      obtain ⟨others, hothers, hsub', hmem'⟩ := all.requests
      refine ⟨first ++ others, by rw [hothers, hfirst, List.append_assoc], hsub.append hsub',
        fun x hx => ?_⟩
      rw [List.mem_append]
      rw [unasked_congr one.structural] at hmem'
      rcases List.mem_cons.mp hx with rfl | hx
      · rw [hmem x List.mem_cons_self, or_iff_left]
        exact fun hx => hnot (hsub'.subset hx)
      · rw [hmem' x hx, or_iff_right]
        intro hfirst
        exact hnot (List.mem_singleton.mp (hsub.subset hfirst) ▸ hx)

structure RecordsRestored (g g' : MountedGraph K) (carry : InteractionCarry) (staged : List ℕ) :
    Prop where
  structural : withoutInteraction g' = withoutInteraction g
  keyboard : g'.interaction.keyboard = g.interaction.keyboard
  sizes : ∀ x size, g'.interaction.canvasSizes.get x = some size ↔
    x ∈ staged ∧ Inherits g carry x size ∨
      g.interaction.canvasSizes.get x = some size ∧ ¬(x ∈ staged ∧ ∃ own, Inherits g carry x own)

theorem records_unchanged (plain : ∀ size, ¬Inherits g carry id size) : RecordsRestored g g carry [id] := by
  refine ⟨rfl, rfl, fun x size => ?_⟩
  by_cases hx : x = id
  · rw [hx]
    simp [plain]
  · simp [hx]

theorem restore_one_records {u : Unit} (h : (restoreOne carry id).run g = .ok u g') :
    RecordsRestored g g' carry [id] := by
  simp only [restoreOne, bind_ok, get_ok] at h
  obtain ⟨_, _, ⟨rfl, rfl⟩, h⟩ := h
  split at h
  · rename_i hk
    obtain ⟨-, rfl⟩ := pure_ok.mp h
    refine records_unchanged fun size hin => ?_
    have hasks := hin.1
    rw [CanvasSettling.asksSize, hk] at hasks
    cases hasks
  · rename_i label hk
    simp only [bind_ok, query_run_ok] at h
    obtain ⟨path, _, ⟨hpath, rfl⟩, h⟩ := h
    have hasks : CanvasSettling.asksSize g id = true := by
      rw [CanvasSettling.asksSize, hk]
    have hiff (size : ℕ × ℕ) : Inherits g carry id size ↔ carry.canvasSizes.get path = some size := by
      constructor
      · rintro ⟨-, path', hpath', hget⟩
        rwa [named_single hpath' hpath] at hget
      · intro hget
        exact ⟨hasks, path, hpath, hget⟩
    split at h
    · rename_i size hsize
      obtain rfl := modify_ok.mp h
      refine ⟨rfl, rfl, fun x other => ?_⟩
      dsimp only
      rw [FiniteMap.get_set, List.mem_singleton]
      by_cases hx : x = id
      · simp [hx, hiff, hsize]
      · simp [hx]
    · rename_i hnone
      obtain ⟨-, rfl⟩ := pure_ok.mp h
      refine records_unchanged fun size hin => ?_
      rw [(hiff size).mp hin] at hnone
      cases hnone
  · rename_i kind hcanvas hk
    have plain (size : ℕ × ℕ) : ¬Inherits g carry id size := by
      intro hin
      have hasks := hin.1
      rw [CanvasSettling.asksSize, hk] at hasks
      split at hasks
      · rename_i label heq
        exact hcanvas label (Option.some.inj heq)
      · cases hasks
    split at h
    · obtain ⟨-, rfl⟩ := pure_ok.mp h
      exact records_unchanged plain
    · simp only [bind_ok, query_run_ok, modify_ok] at h
      obtain ⟨identity, _, ⟨-, rfl⟩, rfl⟩ := h
      exact ⟨rfl, rfl, (records_unchanged plain).sizes⟩

theorem restore_each_records {staged : List ℕ} {u : PUnit}
    (h : (staged.forM (restoreOne carry)).run g = .ok u g') : RecordsRestored g g' carry staged := by
  induction staged generalizing g with
  | nil =>
    obtain rfl := forM_nil_ok.mp h
    exact ⟨rfl, rfl, by simp⟩
  | cons id rest ih =>
    obtain ⟨t, hone, hrest⟩ := forM_cons_ok.mp h
    have one := restore_one_records hone
    have all := ih hrest
    refine ⟨all.structural.trans one.structural, all.keyboard.trans one.keyboard, fun x size => ?_⟩
    rw [all.sizes, one.sizes, inherits_congr one.structural, List.mem_singleton, List.mem_cons]
    have hany : Inherits g carry x size → ∃ own, Inherits g carry x own := fun h => ⟨size, h⟩
    generalize (∃ own, Inherits g carry x own) = any at hany
    tauto

end Restoring

section Mounting

variable {g g' : MountedGraph K} {c : Interaction}

def listed (i : Interaction) (node : Node K) : Interaction :=
  match node.kind with
  | .popover _ _ _ _ shortcuts focusSerial =>
    { i with keyboard := KeyboardState.mount i.keyboard node.id shortcuts focusSerial }
  | .split _ _ _ _ _ _ _ shortcuts =>
    if shortcuts ≠ [] then { i with keyboard := { i.keyboard with
      regions := insert node.id i.keyboard.regions } }
    else i
  | _ => i

def asking (nodes : List (Node K)) : List ℕ :=
  (nodes.filter fun n => serialOf n.kind ≠ 0).map (·.id)

/-- No structural edit but mounting a node touches the interaction state. -/
abbrev Idle {α : Type} (c : Interaction) (m : GraphMethod K α) : Prop :=
  Preserves (fun g => g.interaction = c) m

theorem idle_alter (message : String) (id : ℕ) (f : MountedNode K → MountedNode K) :
    Idle c (alter message id f) :=
  preserves_bind preserves_get fun _ => preserves_bind (preserves_expect _ _) fun _ =>
    preserves_modify fun _ h => h

theorem idle_plain (message : String) (id : ℕ) (f : MountedNode K → MountedNode K) (_ : Plain f) :
    Idle c (alter message id f) := idle_alter message id f

theorem idle_segment (message : String) (child : ℕ × IdentitySegment) :
    Idle c (setSegment message child : GraphMethod K _) := idle_alter message child.1 _

theorem idle_retire (message : String) (instances : List ℕ) (id : ℕ) :
    Idle c (retire message instances id : GraphMethod K _) := by
  refine preserves_bind preserves_get fun _ => preserves_bind (preserves_expect _ _) fun _ =>
    preserves_bind (preserves_modify fun _ h => h) fun _ => ?_
  split
  · exact preserves_bind (preserves_modify fun _ h => h) fun _ => preserves_pure _
  · exact preserves_bind (preserves_modify fun _ h => h) fun _ => preserves_pure _
  · exact preserves_bind (preserves_modify fun _ h => h) fun _ => preserves_pure _
  · exact preserves_pure _

theorem mount_interaction {validated : ValidatedFragment K} {node : Node K} {u : Unit}
    (h : (mountNode validated node).run g = .ok u g') : g'.interaction = listed g.interaction node := by
  rw [mountNode, bind_ok] at h
  obtain ⟨_, t, hindex, hset⟩ := h
  obtain rfl := modify_ok.mp hset
  rw [indexNode, bind_ok] at hindex
  obtain ⟨_, s, hissue, hindex⟩ := hindex
  obtain rfl := modify_ok.mp hissue
  unfold listed
  cases hkind : node.kind with
  | boundary instanceId =>
    rw [hkind] at hindex
    rw [modify_ok.mp hindex]
  | textInput label enabled =>
    rw [hkind] at hindex
    simp only [bind_ok, expect_ok] at hindex
    obtain ⟨owner, _, ⟨-, rfl⟩, hindex⟩ := hindex
    rw [modify_ok.mp hindex]
  | dialog label =>
    rw [hkind] at hindex
    rw [modify_ok.mp hindex]
  | popover label delay enter exit shortcuts focusSerial =>
    rw [hkind] at hindex
    rw [modify_ok.mp hindex]
  | split label side size min max collapsible collapsed shortcuts =>
    rw [hkind] at hindex
    by_cases hshortcuts : shortcuts = []
    · simp only [hshortcuts] at hindex
      obtain ⟨-, rfl⟩ := pure_ok.mp hindex
      simp [hshortcuts]
    · simp only [ne_eq, hshortcuts, not_false_eq_true, if_true] at hindex
      rw [modify_ok.mp hindex]
      simp [hshortcuts]
  | _ =>
    rw [hkind] at hindex
    obtain ⟨-, rfl⟩ := pure_ok.mp hindex
    rfl

theorem mount_each_interaction {validated : ValidatedFragment K} {nodes : List (Node K)} {u : PUnit}
    (h : (nodes.forM (mountNode validated)).run g = .ok u g') :
    g'.interaction = nodes.foldl listed g.interaction := by
  induction nodes generalizing g with
  | nil =>
    obtain rfl := forM_nil_ok.mp h
    rfl
  | cons n rest ih =>
    obtain ⟨t, hone, hrest⟩ := forM_cons_ok.mp h
    rw [ih hrest, mount_interaction hone, List.foldl_cons]

structure Listed (i j : Interaction) (regions : List ℕ) : Prop where
  held : heldBy j = heldBy i
  sizes : j.canvasSizes = i.canvasSizes
  serials : j.keyboard.serials = i.keyboard.serials
  requests : j.keyboard.requests = i.keyboard.requests
  staged : j.keyboard.stagedRequests = i.keyboard.stagedRequests ++ regions

theorem listed_one (i : Interaction) (node : Node K) : Listed i (listed i node) (asking [node]) := by
  have same (j : Interaction) (hovered : j.hovered = i.hovered) (popovers : j.popovers = i.popovers) :
      heldBy j = heldBy i := by
    funext hold
    cases hold <;> simp only [heldBy, hovered, popovers]
  unfold listed asking
  split
  · rename_i serial hkind
    refine ⟨same _ rfl rfl, rfl, rfl, rfl, ?_⟩
    by_cases hserial : serial = 0
    · simp [hkind, serialOf, KeyboardState.mount, hserial]
    · simp [hkind, serialOf, KeyboardState.mount, hserial]
  · rename_i hkind
    split
    · exact ⟨same _ rfl rfl, rfl, rfl, rfl, by simp [hkind, serialOf]⟩
    · exact ⟨rfl, rfl, rfl, rfl, by simp [hkind, serialOf]⟩
  · rename_i hpopover hsplit
    have hserial : serialOf node.kind = 0 := by
      unfold serialOf
      split
      · rename_i heq
        exact absurd heq (hpopover _ _ _ _ _ _)
      · rfl
    exact ⟨rfl, rfl, rfl, rfl, by simp [hserial]⟩

theorem listed_all (i : Interaction) (nodes : List (Node K)) :
    Listed i (nodes.foldl listed i) (asking nodes) := by
  induction nodes generalizing i with
  | nil => exact ⟨rfl, rfl, rfl, rfl, (List.append_nil _).symm⟩
  | cons n rest ih =>
    have one := listed_one i n
    have all := ih (listed i n)
    have split : asking (n :: rest) = asking [n] ++ asking rest := by
      rw [asking, asking, asking, ← List.map_append, ← List.filter_append, List.singleton_append]
    rw [List.foldl_cons]
    refine ⟨all.held.trans one.held, all.sizes.trans one.sizes, all.serials.trans one.serials,
      all.requests.trans one.requests, ?_⟩
    rw [all.staged, one.staged, split, List.append_assoc]

variable [DecidableEq K]

theorem insert_interaction {nodes : List (Node K)} {validated : ValidatedFragment K} {u : Unit}
    (h : (insertNodes nodes validated).run g = .ok u g') :
    g'.interaction = nodes.foldl listed g.interaction := by
  simp only [insertNodes, bind_ok] at h
  obtain ⟨_, t, hmount, _, s, hseed, hsettle⟩ := h
  have seeded := kept_of_preserves (φ := fun g => g.interaction)
    (fun c => preserves_forM (frame_seed idle_plain) _) hseed
  have settled := kept_of_preserves (φ := fun g => g.interaction)
    (fun c => preserves_forM (frame_settle idle_plain idle_segment) _) hsettle
  rw [settled, seeded, mount_each_interaction hmount]

theorem exchange_interaction {r : Replacement K} {plan : ReplacementPlan K} {oldSize : ℕ}
    {ended : List ℕ} (h : (exchange r plan oldSize).run g = .ok ended g') :
    g'.interaction = r.nodes.foldl listed g.interaction := by
  simp only [exchange, bind_ok, query_run_ok, pure_ok] at h
  obtain ⟨_, t1, hretire, _, t2, hinsert, _, t3, hparent, _, t4, hsegment, size, t5, ⟨-, rfl⟩, _, t6,
    hattach, -, rfl⟩ := h
  have retired := kept_of_preserves (φ := fun g => g.interaction)
    (fun c => preserves_foldlM (fun _ _ => idle_retire _ _ _) _ _) hretire
  have parented := kept_of_preserves (φ := fun g => g.interaction) (fun c => idle_alter _ _ _) hparent
  have keyed := kept_of_preserves (φ := fun g => g.interaction) (fun c => idle_alter _ _ _) hsegment
  have attached := kept_of_preserves (φ := fun g => g.interaction)
    (fun c => frame_attach idle_plain idle_segment (fun _ _ h => h) _ _ _ _) hattach
  rw [attached, keyed, parented, insert_interaction hinsert, retired]

theorem fragments_interaction {container : ℕ} {order : KeyedChildOrder K}
    {fragments : List (FragmentPlan K)} {u : PUnit}
    (h : (fragments.forM (mountFragment container order)).run g = .ok u g') :
    g'.interaction = (fragments.map (·.nodes)).flatten.foldl listed g.interaction := by
  induction fragments generalizing g with
  | nil =>
    obtain rfl := forM_nil_ok.mp h
    rfl
  | cons f rest ih =>
    obtain ⟨t, hone, hrest⟩ := forM_cons_ok.mp h
    simp only [mountFragment, bind_ok, expect_ok] at hone
    obtain ⟨_, s, hinsert, child, _, ⟨-, rfl⟩, halter⟩ := hone
    have altered := kept_of_preserves (φ := fun g => g.interaction) (fun c => idle_alter _ _ _) halter
    rw [ih hrest, altered, insert_interaction hinsert, List.map_cons, List.flatten_cons,
      List.foldl_append]

theorem exchangeKeyed_interaction {container oldSize keyedSize : ℕ} {order : KeyedChildOrder K}
    {prepared : PreparedFragments K} {ended : List ℕ}
    (h : (exchangeKeyed container order prepared oldSize keyedSize).run g = .ok ended g') :
    g'.interaction = prepared.nodes.foldl listed g.interaction := by
  simp only [exchangeKeyed, bind_ok, pure_ok] at h
  obtain ⟨_, t1, hretire, _, t2, hmount, _, t3, hresize, _, t4, horder, -, rfl⟩ := h
  have retired := kept_of_preserves (φ := fun g => g.interaction)
    (fun c => preserves_foldlM (fun _ _ => idle_retire _ _ _) _ _) hretire
  have resized := kept_of_preserves (φ := fun g => g.interaction)
    (fun c => frame_container idle_plain _ _ _) hresize
  have ordered := kept_of_preserves (φ := fun g => g.interaction) (fun c => idle_alter _ _ _) horder
  rw [ordered, resized, fragments_interaction hmount, retired]
  rfl

end Mounting

section Finishing

variable {g t v : MountedGraph K} {carry : InteractionCarry} {staged : List ℕ} {previous : Option ℕ}

theorem blocked_iff {dialog : ℕ} {ids blocked : List ℕ} (h : blockedBy g dialog ids = .ok blocked)
    {x : ℕ} : x ∈ blocked ↔ x ∈ ids ∧ (g.isDescendantOf x dialog : Reading K _) = .ok false := by
  induction ids generalizing blocked with
  | nil =>
    obtain rfl := Except.ok.inj h
    simp
  | cons id rest ih =>
    rw [blockedBy] at h
    obtain ⟨inside, hinside, h⟩ := except_bind_ok.mp h
    obtain ⟨others, hothers, h⟩ := except_bind_ok.mp h
    obtain rfl := Except.ok.inj h
    cases inside with
    | true =>
      rw [if_pos rfl, ih hothers, List.mem_cons]
      constructor
      · rintro ⟨hx, hout⟩
        exact ⟨.inr hx, hout⟩
      · rintro ⟨rfl | hx, hout⟩
        · rw [hinside] at hout
          cases hout
        · exact ⟨hx, hout⟩
    | false =>
      rw [if_neg Bool.false_ne_true, List.mem_cons, List.mem_cons, ih hothers]
      constructor
      · rintro (rfl | ⟨hx, hout⟩)
        · exact ⟨.inl rfl, hinside⟩
        · exact ⟨.inr hx, hout⟩
      · rintro ⟨rfl | hx, hout⟩
        · exact .inl rfl
        · exact .inr ⟨hx, hout⟩

/-- The last step of a patch: what a new dialog takes away. -/
structure Screened (t v : MountedGraph K) (previous : Option ℕ) : Prop where
  structural : withoutInteraction v = withoutInteraction t
  sizes : v.interaction.canvasSizes = t.interaction.canvasSizes
  keyboard : v.interaction.keyboard = t.interaction.keyboard
  held : ∀ hold x, x ∈ heldBy v.interaction hold ↔
    x ∈ heldBy t.interaction hold ∧ (v.dialog ≠ previous → InsideDialog v x)

theorem finish_screened {u : Unit} (h : (finishInteraction previous staged carry).run g = .ok u v) :
    ∃ t, (restoreInteraction staged carry).run g = .ok () t ∧ Screened t v previous := by
  simp only [finishInteraction, bind_ok, get_ok] at h
  obtain ⟨_, t, hrestore, _, _, ⟨rfl, rfl⟩, h⟩ := h
  refine ⟨t, hrestore, ?_⟩
  cases hd : t.dialog with
  | none =>
    rw [hd] at h
    obtain ⟨-, rfl⟩ := pure_ok.mp h
    refine ⟨rfl, rfl, rfl, fun hold x => (and_iff_left fun _ d hd' => ?_).symm⟩
    rw [hd] at hd'
    cases hd'
  | some d =>
    simp only [hd] at h
    split at h
    · simp only [retireBehindDialog, bind_ok, get_ok, query_run_ok, modify_ok] at h
      obtain ⟨_, _, ⟨rfl, rfl⟩, blocked, _, ⟨hblocked, rfl⟩, rfl⟩ := h
      rename_i hnew
      refine ⟨rfl, rfl, rfl, fun hold x => ?_⟩
      have hsplit : x ∈ heldBy (Interaction.block blocked.toFinset t.interaction) hold ↔
          x ∈ heldBy t.interaction hold ∧ x ∉ blocked := by
        cases hold <;> simp [heldBy, Interaction.block]
      refine hsplit.trans (and_congr_right fun hx => ?_)
      have hmem : x ∈ ascending (t.interaction.hovered ∪ t.interaction.popovers.shown ∪
          t.interaction.popovers.pending ∪ t.interaction.popovers.focusWithin) := by
        rw [mem_ascending]
        simp only [Finset.mem_union]
        cases hold with
        | hovered => exact .inl (.inl (.inl hx))
        | shown => exact .inl (.inl (.inr hx))
        | pending => exact .inl (.inr hx)
        | focusWithin => exact .inr hx
      rw [blocked_iff hblocked]
      constructor
      · intro hout _ d' hd'
        obtain rfl : d = d' := Option.some.inj (hd.symm.trans hd')
        refine (descendant_congr (g := t) ?_ x d).trans ?_
        · rfl
        exact mem_blocked hblocked hmem fun hx => hout (blocked_iff hblocked |>.mp hx)
      · rintro hinside ⟨-, hout⟩
        have hin := hinside (by rw [hd]; exact hnew) d hd
        have hin' : (t.isDescendantOf x d : Reading K _) = .ok true :=
          (descendant_congr (g := t) (by rfl) x d).symm.trans hin
        rw [hin'] at hout
        cases hout
    · rename_i hsame
      obtain ⟨-, rfl⟩ := pure_ok.mp h
      refine ⟨rfl, rfl, rfl, fun hold x => (and_iff_left fun hne => ?_).symm⟩
      exact absurd (hd.trans (not_not.mp hsame)) hne

/-- The graph after the staged requests are taken out. -/
def cleared (g : MountedGraph K) : MountedGraph K := { g with interaction :=
  { g.interaction with keyboard := { g.interaction.keyboard with stagedRequests := [] } } }

theorem restore_records {u : Unit} (distinct : g.interaction.keyboard.stagedRequests.Nodup)
    (hserial : ∀ x ∈ g.interaction.keyboard.stagedRequests, serialAt g x ≠ 0)
    (h : (restoreInteraction staged carry).run g = .ok u v) :
    ∃ t, Answering (cleared g) t carry g.interaction.keyboard.stagedRequests ∧
      RecordsRestored t v carry staged := by
  simp only [restoreInteraction, bind_ok, get_ok, modify_ok] at h
  obtain ⟨_, _, ⟨rfl, rfl⟩, _, s, rfl, _, t, hrequests, h⟩ := h
  have answered : Answering (cleared g) t carry g.interaction.keyboard.stagedRequests :=
    request_each distinct hserial hrequests
  refine ⟨t, answered, ?_⟩
  split at h
  · rename_i hempty
    obtain ⟨-, rfl⟩ := pure_ok.mp h
    obtain ⟨-, -, -, -, hsizes⟩ := of_decide_eq_true hempty
    have plain (x : ℕ) (size : ℕ × ℕ) : ¬Inherits t carry x size := by
      rintro ⟨-, path, -, hget⟩
      rw [hsizes, FiniteMap.get_empty] at hget
      cases hget
    exact ⟨rfl, rfl, fun x size => by simp [plain]⟩
  · exact restore_each_records h

end Finishing

end InteractionCarries
