import RocGui.FocusLandings
import RocGui.FocusWithin
import RocGui.Locators

/-! Which nodes of a mounted graph a locator of a specification matches. -/
namespace LocatorMatches

open FiniteMaps Methods TextFormats GraphState GraphRuns FragmentValidation GraphPatches GraphForests
open NodeForms FocusSearches FocusLandings Locators PopoverRuns FocusWithin Popovers Transitions

variable {K : Type} [DecidableEq K]

section Model

/-- What a node shows besides its kind: its text, the chord its text was spelled from, whether it
is a tab, and the labels of what is drawn on it. -/
structure Painted where
  value : Text
  chord : Option Text
  tab : Bool
  primitives : List Text

def isPrimitive (locator : Locator) : Bool :=
  match locator.target with
  | .named .canvasItemName _ | .named .canvasItemPrefix _ => true
  | _ => false

def startsWith (text beginning : Text) : Bool := beginning.isPrefixOf text

variable (g : MountedGraph K) (painted : ℕ → Painted)

def answersTo (form : Form) (expected : Text) (node : Node K) : Bool :=
  let shown := painted node.id
  match form, node.kind with
  | .text, .text | .text, .styledText => shown.value = expected
  | .textPrefix, .text | .textPrefix, .styledText => startsWith shown.value expected
  | .buttonName, .button label .. => !shown.tab && label.toList = expected
  | .buttonPrefix, .button label .. => !shown.tab && startsWith label.toList expected
  | .tabName, .button label .. => shown.tab && label.toList = expected
  | .separatorName, .split label .. => label.toList = expected
  | .dropTargetName, .dropTarget label => label.toList = expected
  | .checkboxName, .checkbox label _ => label.toList = expected
  | .checkboxPrefix, .checkbox label _ => startsWith label.toList expected
  | .columnName, .column label | .columnName, .keyedColumn label .. =>
    label ≠ "" && label.toList = expected
  | .dialogName, .dialog label => label.toList = expected
  | .chord, .styledText => shown.chord = some expected
  | .shortcut, .popover _ _ _ _ shortcuts _ =>
    shortcuts.any fun shortcut => shortcut.keys.toList = expected
  | .tooltipName, .popover label .. =>
    label.toList = expected && node.id ∈ g.interaction.popovers.shown
  | .panelName, .panel label => label ≠ "" && label.toList = expected
  | .rowName, .row label => label ≠ "" && label.toList = expected
  | .scrollName, .scroll name => name.toList = expected
  | .textInputName, .textInput label _ => label.toList = expected
  | .virtualListName, .virtualList name .. => name.toList = expected
  | .textareaName, .textarea label .. => label.toList = expected
  | .imageName, .image label => label.toList = expected
  | .canvasName, .canvas label _ => label.toList = expected
  | .canvasItemName, .canvas .. => shown.primitives.any fun label => label = expected
  | _, _ => false

/-- The primitives of a canvas that a label starts, each by its canvas. -/
def primitivesOf (expected : Text) (node : Node K) : List ℕ :=
  match node.kind with
  | .canvas .. =>
    ((painted node.id).primitives.filter fun label => startsWith label expected).map fun _ => node.id
  | _ => []

def presentedPreorderFrom : ℕ → List ℕ → Reading K (List (Node K))
  | _, [] => .ok []
  | 0, _ :: _ => .error .diverges
  | fuel + 1, id :: pending =>
    match g.node id with
    | none => .error (.panic "mounted child is missing")
    | some node => do
      let children ← shownChildren g id node
      return node :: (← presentedPreorderFrom fuel (children ++ pending))

def presentedPreorder : Reading K (List (Node K)) :=
  presentedPreorderFrom g g.climb g.root.toList

def meets (ancestors : List ℕ) : ℕ → Option ℕ → Reading K Bool
  | _, none => .ok false
  | 0, some _ => .error .diverges
  | fuel + 1, some id =>
    if id ∈ ancestors then .ok true else meets ancestors fuel ((parentOf g id).map (·.1))

/-- A primitive is matched by its canvas, which is its parent. -/
def parentOfMatch (primitive : Bool) (id : ℕ) : Option ℕ :=
  if primitive then some id else (parentOf g id).map (·.1)

def passing (test : ℕ → Reading K Bool) : List ℕ → Reading K (List ℕ)
  | [] => .ok []
  | id :: rest => do
    let passes ← test id
    let others ← passing test rest
    return if passes then id :: others else others

/-- `matches`: the nodes that a locator resolves to, in document order. -/
def locatorMatches : Locator → Reading K (List ℕ)
  | .within ancestor target =>
    if isPrimitive ancestor then .ok []
    else do
      let ancestors ← locatorMatches ancestor
      let found ← locatorMatches target
      passing (fun id => meets g ancestors g.climb (parentOfMatch g (isPrimitive target) id)) found
  | .named form expected => do
    let nodes ← presentedPreorder g
    if form = .canvasItemPrefix then return nodes.flatMap (primitivesOf painted expected)
    else return (nodes.filter (answersTo g painted form expected)).map (·.id)

end Model

section Walks

variable {g : MountedGraph K} {painted : ℕ → Painted} {fuel : ℕ} {pending ancestors : List ℕ}

theorem presented_walk (h : Shape g) (formed : Formed g) (hm : ∀ x ∈ pending, (forest g).Mounted x)
    (enough : load g pending ≤ fuel) : ∃ nodes, presentedPreorderFrom g fuel pending = .ok nodes := by
  induction fuel generalizing pending with
  | zero =>
    cases pending with
    | nil => exact ⟨[], rfl⟩
    | cons x pending =>
      rw [load_cons h (hm x List.mem_cons_self)] at enough
      omega
  | succ fuel ih =>
    cases pending with
    | nil => exact ⟨[], rfl⟩
    | cons x pending =>
      have hx := hm x List.mem_cons_self
      obtain ⟨n, hn⟩ := node_exists hx
      rw [load_cons h hx] at enough
      obtain ⟨children, hchildren, hmem, hload⟩ := shown_children h formed hn
      have hmounted : ∀ c ∈ children ++ pending, (forest g).Mounted c := by
        intro c hc
        rcases List.mem_append.mp hc with hc | hc
        · obtain ⟨l, hl, -⟩ := (hmem c).mp hc
          exact (h.linked.placed hl).1
        · exact hm c (List.mem_cons_of_mem _ hc)
      obtain ⟨nodes, hnodes⟩ := ih hmounted (by rw [load_append]; omega)
      rw [presentedPreorderFrom, hn]
      dsimp only
      rw [hchildren]
      dsimp only [bind, Except.bind]
      rw [hnodes]
      exact ⟨_, rfl⟩

theorem presented_answers (h : Shape g) (formed : Formed g) :
    ∃ nodes, presentedPreorder g = .ok nodes := by
  refine presented_walk h formed (fun x hx => ?_) ?_
  · exact (h.linked.rooted x (Option.mem_toList.mp hx)).1
  · cases hroot : g.root with
    | none => exact Nat.zero_le _
    | some r =>
      have hle := weight_le_size h (h.linked.rooted r hroot).1
      rw [Option.toList_some, load, List.map_singleton, List.sum_singleton, MountedGraph.climb]
      omega

omit [DecidableEq K] in
theorem meets_of_containing {next : Option ℕ} {ids : List ℕ}
    (h : containingFrom g fuel next = .ok ids) : ∃ found, meets g ancestors fuel next = .ok found := by
  induction fuel generalizing next ids with
  | zero =>
    cases next with
    | none => exact ⟨false, rfl⟩
    | some x => cases h
  | succ fuel ih =>
    cases next with
    | none => exact ⟨false, rfl⟩
    | some x =>
      rw [containingFrom] at h
      obtain ⟨above, habove, -⟩ := except_bind_ok.mp h
      rw [meets]
      split
      · exact ⟨true, rfl⟩
      · exact ih habove

omit [DecidableEq K] in
theorem meets_iff {next : Option ℕ} {found : Bool} (h : meets g ancestors fuel next = .ok found) :
    found = true ↔ ∃ x ∈ next, ∃ s ∈ ancestors, OrdinarilyAbove g x s := by
  induction fuel generalizing next with
  | zero =>
    cases next with
    | none =>
      obtain rfl := Except.ok.inj h
      simp
    | some x => cases h
  | succ fuel ih =>
    cases next with
    | none =>
      obtain rfl := Except.ok.inj h
      simp
    | some x =>
      rw [meets] at h
      split at h
      · rename_i hx
        obtain rfl := Except.ok.inj h
        exact ⟨fun _ => ⟨x, rfl, x, hx, .refl⟩, fun _ => rfl⟩
      · rename_i hx
        rw [ih h]
        constructor
        · rintro ⟨p, hp, s, hs, above⟩
          exact ⟨x, rfl, s, hs, .head hp above⟩
        · rintro ⟨y, hy, s, hs, above⟩
          obtain rfl := Option.some.inj hy
          rcases above.cases_head with rfl | ⟨p, hp, above⟩
          · exact absurd hs hx
          · exact ⟨p, hp, s, hs, above⟩

omit [DecidableEq K] in
theorem passing_ok {keep : ℕ → Bool} {test : ℕ → Reading K Bool} {ids : List ℕ}
    (h : ∀ id ∈ ids, test id = .ok (keep id)) : passing test ids = .ok (ids.filter keep) := by
  induction ids with
  | nil => rfl
  | cons id rest ih =>
    rw [passing, h id List.mem_cons_self, ih fun x hx => h x (List.mem_cons_of_mem _ hx),
      List.filter_cons]
    rfl

end Walks

section Scoping

variable {g : MountedGraph K} {painted : ℕ → Painted} {scope target locator : Locator}

/-- `s` stands over what is matched by `id`, which is a node or, for a primitive, its canvas. -/
def Over (g : MountedGraph K) (primitive : Bool) (id s : ℕ) : Prop :=
  ∃ p, (if primitive then some id else (g.parentLocation id).map (·.parent)) = some p ∧ Above g p s

def OrdinarilyOver (g : MountedGraph K) (primitive : Bool) (id s : ℕ) : Prop :=
  ∃ p, parentOfMatch g primitive id = some p ∧ OrdinarilyAbove g p s

omit [DecidableEq K] in
theorem over_of_ordinary {primitive : Bool} {id s : ℕ} (h : OrdinarilyOver g primitive id s) :
    Over g primitive id s := by
  obtain ⟨p, hp, above⟩ := h
  refine ⟨p, ?_, above_of_ordinary above⟩
  cases primitive with
  | true => exact hp
  | false => exact parent_ordinary hp

theorem matches_answer (h : Shape g) (formed : Formed g) (locator : Locator) :
    ∃ found, locatorMatches g painted locator = .ok found := by
  induction locator with
  | within ancestor target ha ht =>
    rw [locatorMatches]
    split
    · exact ⟨[], rfl⟩
    · obtain ⟨ancestors, hancestors⟩ := ha
      obtain ⟨found, hfound⟩ := ht
      rw [hancestors, hfound]
      have tested (id : ℕ) : ∃ b, meets g ancestors g.climb
          (parentOfMatch g (isPrimitive target) id) = .ok b := by
        obtain ⟨ids, hids⟩ := containing_total h (parentOfMatch g (isPrimitive target) id)
        exact meets_of_containing hids
      choose keep hkeep using tested
      exact ⟨_, passing_ok fun id _ => hkeep id⟩
  | named form expected =>
    obtain ⟨nodes, hnodes⟩ := presented_answers h formed
    rw [locatorMatches, hnodes]
    dsimp only [bind, Except.bind]
    split <;> exact ⟨_, rfl⟩

theorem scoped_matches (h : Shape g) {scopes found : List ℕ} (plain : isPrimitive scope = false)
    (hscopes : locatorMatches g painted scope = .ok scopes)
    (hfound : locatorMatches g painted target = .ok found) : ∃ keep : ℕ → Bool,
      (∀ id, keep id = true ↔ ∃ s ∈ scopes, OrdinarilyOver g (isPrimitive target) id s) ∧
      locatorMatches g painted (.within scope target) = .ok (found.filter keep) := by
  have tested (id : ℕ) : ∃ b, meets g scopes g.climb
      (parentOfMatch g (isPrimitive target) id) = .ok b := by
    obtain ⟨ids, hids⟩ := containing_total h (parentOfMatch g (isPrimitive target) id)
    exact meets_of_containing hids
  choose keep hkeep using tested
  refine ⟨keep, fun id => ?_, ?_⟩
  · rw [meets_iff (hkeep id)]
    constructor
    · rintro ⟨p, hp, s, hs, above⟩
      exact ⟨s, hs, p, hp, above⟩
    · rintro ⟨s, hs, p, hp, above⟩
      exact ⟨p, hp, s, hs, above⟩
  · rw [locatorMatches, if_neg (by simp [plain]), hscopes, hfound]
    exact passing_ok fun id _ => hkeep id

/-- A scoped locator matches the matches of its target that stand under a match of its scope
when and only when each of those stands so without a keyed item between. -/
theorem scoped_exact (hreach : Reachable (accepting K) g) (i : Interaction) (painted : ℕ → Painted)
    (scope target : Locator) : ∃ scopes found result,
      locatorMatches { g with interaction := i } painted scope = .ok scopes ∧
      locatorMatches { g with interaction := i } painted target = .ok found ∧
      locatorMatches { g with interaction := i } painted (.within scope target) = .ok result ∧
      ((∃ keep : ℕ → Bool, result = found.filter keep ∧ ∀ id ∈ found, keep id = true ↔
          isPrimitive scope = false ∧ ∃ s ∈ scopes, Over g (isPrimitive target) id s) ↔
        (isPrimitive scope = false → ∀ id ∈ found, (∃ s ∈ scopes, Over g (isPrimitive target) id s) →
          ∃ s ∈ scopes, OrdinarilyOver g (isPrimitive target) id s)) := by
  have shape := shape_reachable hreach
  have form := formed_reachable hreach
  have h : Shape { g with interaction := i } :=
    ⟨shape.orders, shape.linked, shape.weighed, shape.issued⟩
  have formed : Formed { g with interaction := i } := ⟨form.named, form.counted, form.ordered⟩
  obtain ⟨scopes, hscopes⟩ := @matches_answer _ _ _ painted h formed scope
  obtain ⟨found, hfound⟩ := @matches_answer _ _ _ painted h formed target
  cases hp : isPrimitive scope with
  | true =>
    refine ⟨scopes, found, [], hscopes, hfound, by rw [locatorMatches, if_pos hp], ?_⟩
    refine ⟨fun _ => nofun, fun _ => ⟨fun _ => false, ?_, fun id _ => ?_⟩⟩
    · rw [List.filter_eq_nil_iff.mpr fun _ _ => Bool.false_ne_true]
    · simp
  | false =>
    obtain ⟨keep, hkeep, hresult⟩ := scoped_matches h hp hscopes hfound
    refine ⟨scopes, found, _, hscopes, hfound, hresult, ?_⟩
    constructor
    · rintro ⟨exact, hsame, hexact⟩ - id hid hover
      have hin : id ∈ found.filter keep := by
        rw [hsame]
        exact List.mem_filter.mpr ⟨hid, (hexact id hid).mpr ⟨rfl, hover⟩⟩
      exact (hkeep id).mp (List.mem_filter.mp hin).2
    · intro ordinary
      refine ⟨keep, rfl, fun id hid => ?_⟩
      rw [hkeep id]
      constructor
      · rintro ⟨s, hs, hover⟩
        exact ⟨rfl, s, hs, over_of_ordinary hover⟩
      · rintro ⟨-, hover⟩
        exact ordinary rfl id hid hover

end Scoping

section Rows

def unpainted : ℕ → Painted := fun _ => ⟨[], none, false, []⟩

def openButton : Locator := .named .buttonName "open".toList

theorem open_button_in_split : ∃ g : MountedGraph ℕ, Reachable (accepting ℕ) g ∧
    ∃ scopes found result,
      locatorMatches g unpainted (.named .separatorName "panes".toList) = .ok scopes ∧
      locatorMatches g unpainted openButton = .ok found ∧
      locatorMatches g unpainted (.within (.named .separatorName "panes".toList) openButton) =
        .ok result ∧
      ((∃ keep : ℕ → Bool, result = found.filter keep ∧ ∀ id ∈ found, keep id = true ↔
          isPrimitive (.named .separatorName "panes".toList) = false ∧
            ∃ s ∈ scopes, Over g (isPrimitive openButton) id s) ↔
        (isPrimitive (.named .separatorName "panes".toList) = false → ∀ id ∈ found,
          (∃ s ∈ scopes, Over g (isPrimitive openButton) id s) →
          ∃ s ∈ scopes, OrdinarilyOver g (isPrimitive openButton) id s)) :=
  have ⟨g, reached⟩ : ∃ g : MountedGraph ℕ, Reachable (accepting ℕ) g := ⟨_, folded_reached⟩
  ⟨g, reached, scoped_exact reached g.interaction unpainted _ _⟩

def columnInPanel : Patch ℕ := .mount 1
  [⟨1, .panel "Page", [2]⟩, ⟨2, .keyedColumn "" 0 [7], [3]⟩, ⟨3, .boundary 5, [4]⟩,
    ⟨4, .button "open" true false false, []⟩]

theorem column_matches : ∃ g : MountedGraph ℕ, Reachable (accepting ℕ) g ∧
    locatorMatches g unpainted (.named .panelName "Page".toList) = .ok [1] ∧
    locatorMatches g unpainted openButton = .ok [4] ∧
    locatorMatches g unpainted (.within (.named .panelName "Page".toList) openButton) = .ok [] ∧
    Over g false 4 1 := by
  have reached : Reachable (accepting ℕ) (afterPatch .empty columnInPanel) :=
    reachable_step (reachable_initial _) (accepted_step _ (by decide +kernel))
  have scope : locatorMatches (afterPatch .empty columnInPanel) unpainted
      (.named .panelName "Page".toList) = .ok [1] := by decide +kernel
  have target : locatorMatches (afterPatch .empty columnInPanel) unpainted openButton = .ok [4] := by
    decide +kernel
  have scopedTarget : locatorMatches (afterPatch .empty columnInPanel) unpainted
      (.within (.named .panelName "Page".toList) openButton) = .ok [] := by decide +kernel
  have button : ((afterPatch .empty columnInPanel).parentLocation 4).map (·.parent) = some 3 := by
    decide +kernel
  have item : ((afterPatch .empty columnInPanel).parentLocation 3).map (·.parent) = some 2 := by
    decide +kernel
  have column : ((afterPatch .empty columnInPanel).parentLocation 2).map (·.parent) = some 1 := by
    decide +kernel
  generalize afterPatch .empty columnInPanel = g at *
  exact ⟨g, reached, scope, target, scopedTarget, 3, button, .head item (.head column .refl)⟩

/-- The button is in the panel, and the scoped locator does not match it. -/
theorem button_beyond_item : ¬∀ g : MountedGraph ℕ, Reachable (accepting ℕ) g →
    ∀ painted scope target scopes found result,
      locatorMatches g painted scope = .ok scopes → locatorMatches g painted target = .ok found →
      locatorMatches g painted (.within scope target) = .ok result →
      ∃ keep : ℕ → Bool, result = found.filter keep ∧ ∀ id ∈ found, keep id = true ↔
        isPrimitive scope = false ∧ ∃ s ∈ scopes, Over g (isPrimitive target) id s := by
  intro claim
  obtain ⟨g, reached, scope, target, result, presented⟩ := column_matches
  obtain ⟨keep, hresult, hkeep⟩ := claim g reached _ _ _ _ _ _ scope target result
  have kept : keep 4 = true := (hkeep 4 List.mem_cons_self).mpr ⟨rfl, 1, List.mem_cons_self, presented⟩
  rw [List.filter_cons_of_pos kept] at hresult
  cases hresult

end Rows

end LocatorMatches
