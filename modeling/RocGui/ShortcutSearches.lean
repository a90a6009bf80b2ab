import RocGui.PresentedPreorders
import RocGui.KeyedListings

/-! The shortcut a keystroke reaches: the regions around focus are asked first, then those whose
shortcuts are live in the whole window. -/
namespace ShortcutSearches

open FiniteMaps Methods GraphState GraphPatches GraphForests GraphMounting GraphRuns NodeForms FocusSearches
open FocusLandings DialogRegions PointerTrees PreorderWalks PresentedPreorders GraphLedgers KeyedListings
open Transitions

variable {K : Type} [DecidableEq K]

section Resolution

structure KeyboardCounters where
  offered : ℕ
  matched : ℕ
  compared : ℕ
  deriving DecidableEq, Repr

structure ShortcutMatch where
  region : ℕ
  event : ℕ
  index : ℕ
  keys : String
  deriving DecidableEq, Repr

def shortcutEventBit : ℕ := 1 <<< 60

/-- A region with the first of its shortcuts that compares equal. -/
structure Candidate where
  region : ℕ
  index : ℕ
  keys : String
  deriving DecidableEq, Repr

def editable : NodeKind K → Bool
  | .textInput _ true => true
  | .textarea _ true false => true
  | _ => false

/-- The loop over the shortcuts of one region, with the comparisons it makes. -/
def firstHit (hit : String → Bool) (compares : Shortcut → Bool) : ℕ → List Shortcut → Option (ℕ × String) × ℕ
  | _, [] => (none, 0)
  | index, shortcut :: rest =>
    if compares shortcut then
      if hit shortcut.keys then (some (index, shortcut.keys), 1)
      else
        let (found, compared) := firstHit hit compares (index + 1) rest
        (found, compared + 1)
    else firstHit hit compares (index + 1) rest

variable (g : MountedGraph K)

/-- The climb from the focused node; it ends at the dialog. -/
def enclosingFrom : ℕ → Option ℕ → Reading K (List ℕ)
  | _, none => .ok []
  | 0, some _ => .error .diverges
  | fuel + 1, some id => do
    let above ← if some id = g.dialog then pure []
      else enclosingFrom fuel ((g.parentLocation id).map ParentLocation.parent)
    return if id ∈ g.interaction.keyboard.regions then id :: above else above

/-- A split's region is its divider, not the panes beside it. -/
def declared (focused : Option ℕ) (region : ℕ) : List Shortcut :=
  match kindAt g region with
  | some (.popover _ _ _ _ shortcuts _) => shortcuts
  | some (.split _ _ _ _ _ _ _ shortcuts) => if focused = some region then shortcuts else []
  | _ => []

def searchEnclosing (focused : Option ℕ) (hit : String → Bool) : List ℕ → Reading K (Option Candidate × ℕ)
  | [] => .ok (none, 0)
  | region :: rest => do
    if ← regionLive g region then
      match firstHit hit (fun _ => true) 0 (declared g focused region) with
      | (some (index, keys), compared) => return (some ⟨region, index, keys⟩, compared)
      | (none, compared) => do
        let (found, further) ← searchEnclosing focused hit rest
        return (found, compared + further)
    else searchEnclosing focused hit rest

def windowDeclared (region : ℕ) : List Shortcut :=
  match kindAt g region with
  | some (.popover _ _ _ _ shortcuts _) => shortcuts
  | _ => []

def searchWindow (enclosing : List ℕ) (hit : String → Bool) : List ℕ → Reading K (List Candidate × ℕ)
  | [] => .ok ([], 0)
  | region :: rest => do
    if region ∈ enclosing then searchWindow enclosing hit rest
    else if ← regionLive g region then
      let (found, compared) :=
        firstHit hit (fun shortcut => shortcut.scope = .window) 0 (windowDeclared g region)
      let (candidates, further) ← searchWindow enclosing hit rest
      return ((found.map fun (index, keys) => ⟨region, index, keys⟩).toList ++ candidates, compared + further)
    else searchWindow enclosing hit rest

def latestCandidate : Candidate → List Candidate → Reading K Candidate
  | kept, [] => .ok kept
  | kept, next :: rest => do
    if ← precedes g kept.region next.region then latestCandidate next rest else latestCandidate kept rest

/-- `order` is the order in which the set of the window's regions happens to be read. -/
def resolveWindow (order enclosing : List ℕ) (hit : String → Bool) : Reading K (Option Candidate × ℕ) := do
  let (candidates, compared) ← searchWindow g enclosing hit order
  match candidates with
  | [] => return (none, compared)
  | first :: rest => do return (some (← latestCandidate g first rest), compared)

def resolveShortcut (order : List ℕ) (focused : Option ℕ) (typesCharacter : Bool) (hit : String → Bool)
    (counters : KeyboardCounters) : Reading K (Option ShortcutMatch × KeyboardCounters) := do
  let counters := { counters with offered := counters.offered + 1 }
  let focused := focused.filter fun id => (g.nodes.get id).isSome
  if (focused.bind (kindAt g)).any editable && typesCharacter then return (none, counters)
  let enclosing ← enclosingFrom g g.climb focused
  let (inner, compared) ← searchEnclosing g focused hit enclosing
  let (found, compared) ← match inner with
    | some candidate => pure (some candidate, compared)
    | none => do
      let (found, further) ← resolveWindow g order enclosing hit
      pure (found, compared + further)
  let counters := { counters with compared := counters.compared + compared }
  match found with
  | none => return (none, counters)
  | some ⟨region, index, keys⟩ =>
    return (some ⟨region, region ||| shortcutEventBit, index, keys⟩,
      { counters with matched := counters.matched + 1 })

end Resolution

section DocumentOrder

variable {g : MountedGraph K} {nodes : List (Node K)} {a b x : ℕ}

theorem path_way (h : Shape g) (hm : (forest g).Mounted x) {fuel : ℕ} {path : List ℕ}
    (hrun : pathFrom g fuel x = .ok path) : ∃ r, g.root = some r ∧ Way (kidsOf g) r x path := by
  induction fuel generalizing x path with
  | zero => cases hrun
  | succ fuel ih =>
    rw [pathFrom] at hrun
    cases hp : g.parentLocation x with
    | none =>
      rw [hp] at hrun
      obtain rfl := Except.ok.inj hrun
      exact ⟨x, h.linked.unparented hm hp, .top⟩
    | some l =>
      rw [hp] at hrun
      obtain ⟨above, habove, heq⟩ := except_bind_ok.mp hrun
      obtain rfl := Except.ok.inj heq
      obtain ⟨r, hr, way⟩ := ih (mounted_owner h.linked hm hp) habove
      exact ⟨r, hr, way.down (mem_kids_of.mpr ⟨l, h.linked.listed hm hp⟩)⟩

theorem kids_of_nodup (h : Shape g) (x : ℕ) : (kidsOf g x).Nodup := kids_nodup h.linked x

theorem precedes_before (h : Shape g) (formed : Formed g) (doc : Document g nodes)
    (ha : (forest g).Mounted a) (hb : (forest g).Mounted b) (hne : a ≠ b) :
    ∃ first, precedes g a b = .ok first ∧ (first = true ↔ Before (nodes.map (·.id)) a b) := by
  obtain ⟨first, hrun⟩ := precedes_total h ha hb
  refine ⟨first, hrun, ?_⟩
  have hal := (mem_document formed doc).mpr ha
  have hbl := (mem_document formed doc).mpr hb
  unfold precedes at hrun
  obtain ⟨left, hleft, hrun⟩ := except_bind_ok.mp hrun
  obtain ⟨right, hright, hrun⟩ := except_bind_ok.mp hrun
  obtain ⟨r, hr, wayA⟩ := path_way h ha hleft
  obtain ⟨r', hr', wayB⟩ := path_way h hb hright
  obtain rfl := Option.some.inj (hr.symm.trans hr')
  obtain ⟨common, left', right', rfl, rfl, hlength, hapart⟩ := parting left right
  dsimp only at hrun
  rw [hlength] at hrun
  rw [List.getElem?_append_right le_rfl, List.getElem?_append_right le_rfl, Nat.sub_self] at hrun
  cases left' with
  | nil =>
    -- the path of `a` leads on to `b`
    obtain rfl := Except.ok.inj hrun
    refine iff_of_true rfl ?_
    obtain ⟨front, hlast⟩ := wayA.last
    rw [List.append_nil] at hlast
    have hpath : common ++ right' = front ++ a :: right' := by
      rw [hlast, List.append_assoc, List.singleton_append]
    have hunder : Under (kidsOf g) a b := wayB.under hpath
    exact doc.order.ancestor_before hal hunder hne.symm
  | cons c left' =>
    cases right' with
    | nil =>
      obtain rfl := Except.ok.inj hrun
      refine iff_of_false Bool.false_ne_true (before_asymm doc.distinct ?_)
      obtain ⟨front, hlast⟩ := wayB.last
      rw [List.append_nil] at hlast
      have hpath : common ++ c :: left' = front ++ b :: c :: left' := by
        rw [hlast, List.append_assoc, List.singleton_append]
      have hunder : Under (kidsOf g) b a := wayA.under hpath
      exact doc.order.ancestor_before hbl hunder hne
    | cons d right' =>
      have hcd : c ≠ d := hapart c rfl d rfl
      rcases List.eq_nil_or_concat common with rfl | ⟨common, p, rfl⟩
      · obtain ⟨rest, hfirst⟩ := wayA.first
        obtain ⟨rest', hfirst'⟩ := wayB.first
        exact absurd ((List.cons.inj hfirst).1.trans (List.cons.inj hfirst').1.symm) hcd
      · rw [List.concat_eq_append] at *
        have hfork {e : ℕ} {rest : List ℕ} : common ++ [p] ++ e :: rest = common ++ p :: e :: rest := by simp
        have hp : p ∈ nodes.map (·.id) := by
          obtain ⟨l, hl⟩ := mem_kids_of.mp (wayA.step hfork)
          exact (mem_document formed doc).mpr (mounted_of_kid hl)
        have hbefore := fork_before doc.order doc.distinct hp (kids_of_nodup h p) (wayA.step hfork)
          (wayB.step hfork) hcd (wayA.under rfl) (wayB.under rfl)
        have hkept : (common ++ [p] ++ c :: left')[common.length]? = some p := by simp
        rw [List.length_append, List.length_singleton] at hrun
        dsimp only [List.getElem?_cons_zero] at hrun
        rw [hkept] at hrun
        dsimp only at hrun
        rw [children_of h] at hrun
        obtain rfl := Except.ok.inj hrun
        rw [← hbefore, decide_eq_true_eq, kidsOf]
        simp only [Bool.decide_or]

end DocumentOrder

section Hits

variable {hit : String → Bool} {compares : Shortcut → Bool} {shortcuts : List Shortcut} {start : ℕ}

theorem first_none : (firstHit hit compares start shortcuts).1 = none ↔
    ∀ s ∈ shortcuts, compares s = true → hit s.keys = false := by
  induction shortcuts generalizing start with
  | nil => simp [firstHit]
  | cons s rest ih =>
    rw [firstHit, List.forall_mem_cons, ← @ih (start + 1)]
    by_cases hcompares : compares s = true
    · rw [if_pos hcompares]
      by_cases hhit : hit s.keys = true
      · simp [hhit, hcompares]
      · simp [hhit, hcompares]
    · rw [if_neg hcompares]
      simp [hcompares]

/-- The first of the compared shortcuts that is hit. -/
def FirstHit (hit : String → Bool) (compares : Shortcut → Bool) (shortcuts : List Shortcut) (index : ℕ)
    (keys : String) : Prop :=
  ∃ s, shortcuts[index]? = some s ∧ compares s = true ∧ hit s.keys = true ∧ s.keys = keys ∧
    ∀ i t, i < index → shortcuts[i]? = some t → compares t = true → hit t.keys = false

theorem first_some {index : ℕ} {keys : String}
    (hfirst : (firstHit hit compares start shortcuts).1 = some (index, keys)) :
    ∃ i, index = start + i ∧ FirstHit hit compares shortcuts i keys := by
  induction shortcuts generalizing start with
  | nil => cases hfirst
  | cons s rest ih =>
    rw [firstHit] at hfirst
    have later (hs : compares s = true → hit s.keys = false)
        (hrest : (firstHit hit compares (start + 1) rest).1 = some (index, keys)) :
        ∃ i, index = start + i ∧ FirstHit hit compares (s :: rest) i keys := by
      obtain ⟨i, rfl, t, ht, hcompares, hhit, hkeys, hearlier⟩ := ih hrest
      refine ⟨i + 1, by omega, t, ht, hcompares, hhit, hkeys, fun j u hj hu => ?_⟩
      cases j with
      | zero =>
        obtain rfl := Option.some.inj hu
        exact hs
      | succ j => exact hearlier j u (by omega) hu
    by_cases hcompares : compares s = true
    · rw [if_pos hcompares] at hfirst
      by_cases hhit : hit s.keys = true
      · rw [if_pos hhit] at hfirst
        obtain ⟨rfl, rfl⟩ := Prod.mk.inj (Option.some.inj hfirst)
        exact ⟨0, rfl, s, rfl, hcompares, hhit, rfl, fun i t hi => absurd hi (Nat.not_lt_zero i)⟩
      · rw [if_neg hhit] at hfirst
        exact later (fun _ => Bool.eq_false_iff.mpr hhit) hfirst
    · rw [if_neg hcompares] at hfirst
      exact later (fun h => absurd h hcompares) hfirst

end Hits

section Specification

variable (g : MountedGraph K)

def isDivider : NodeKind K → Bool
  | .split .. => true
  | _ => false

/-- The region declares a chord that is hit. A divider answers only while it is focused itself. -/
def Answers (focused : Option ℕ) (hit : String → Bool) (x : ℕ) : Prop :=
  ∃ kind, kindAt g x = some kind ∧ (isDivider kind = true → focused = some x) ∧
    ∃ s ∈ shortcutsOf kind, hit s.keys = true

def AnswersAnywhere (hit : String → Bool) (x : ℕ) : Prop :=
  ∃ kind, kindAt g x = some kind ∧ isDivider kind = false ∧
    ∃ s ∈ shortcutsOf kind, s.scope = .window ∧ hit s.keys = true

def Encloses (focused : Option ℕ) (x : ℕ) : Prop :=
  ∃ f ∈ focused, (forest g).Mounted f ∧ (forest g).Below x f

structure Inner (focused : Option ℕ) (hit : String → Bool) (x : ℕ) : Prop where
  encloses : Encloses g focused x
  live : Live g x
  answers : Answers g focused hit x

structure Elsewhere (focused : Option ℕ) (hit : String → Bool) (x : ℕ) : Prop where
  apart : ¬Encloses g focused x
  live : Live g x
  answers : AnswersAnywhere g hit x

/-- The region a keystroke reaches when `ids` is the document. -/
inductive Reaches (ids : List ℕ) (focused : Option ℕ) (hit : String → Bool) : Option ℕ → Prop where
  | inner {x : ℕ} : Inner g focused hit x → (∀ y, Inner g focused hit y → (forest g).Below y x) →
    Reaches ids focused hit (some x)
  | elsewhere {x : ℕ} : (∀ y, ¬Inner g focused hit y) → Elsewhere g focused hit x →
    (∀ y, Elsewhere g focused hit y → y ≠ x → Before ids y x) → Reaches ids focused hit (some x)
  | nothing : (∀ y, ¬Inner g focused hit y) → (∀ y, ¬Elsewhere g focused hit y) → Reaches ids focused hit none

def Editing (focused : Option ℕ) : Prop :=
  ∃ f ∈ focused, ∃ kind, kindAt g f = some kind ∧ editable kind = true

end Specification

section Enclosing

variable {g : MountedGraph K} {focused : Option ℕ} {hit : String → Bool} {f x y : ℕ}

theorem below_antisymm (h : Shape g) (hxy : (forest g).Below x y) (hyx : (forest g).Below y x) : x = y := by
  rcases Relation.ReflTransGen.cases_tail hxy with heq | ⟨p, hxp, hpy⟩
  · exact heq.symm
  · have hlt := weight_child h.weighed hpy
    have hle := weight_below h.weighed (hyx.trans hxp)
    omega

/-- The regions around a focused node, from the inside out, as far as the dialog. -/
structure Surrounding (g : MountedGraph K) (f : ℕ) (enclosing : List ℕ) : Prop where
  sound : ∀ x ∈ enclosing, x ∈ g.interaction.keyboard.regions ∧ (forest g).Below x f
  outwards : enclosing.Pairwise fun x y => (forest g).Below y x
  complete : ∀ x ∈ g.interaction.keyboard.regions, (forest g).Below x f → Live g x → x ∈ enclosing

theorem enclosing_from (h : Shape g) (hm : (forest g).Mounted f) {fuel : ℕ} {qs : List ℕ}
    (up : UpTo ParentLocation.parent g.parentLocation (some f) qs) (enough : qs.length ≤ fuel) :
    ∃ enclosing, enclosingFrom g fuel (some f) = .ok enclosing ∧ Surrounding g f enclosing := by
  generalize hcur : some f = cur at up
  induction up generalizing f fuel with
  | top => cases hcur
  | @up q qs rest ih =>
    obtain rfl := Option.some.inj hcur
    rw [List.length_cons] at enough
    obtain ⟨fuel, rfl⟩ : ∃ n, fuel = n + 1 := ⟨fuel - 1, by omega⟩
    -- what the climb goes on with holds the regions strictly above
    obtain ⟨above, habove, hsound, houtwards, hcomplete⟩ : ∃ above,
        enclosingFrom g (fuel + 1) (some f) =
          .ok (if f ∈ g.interaction.keyboard.regions then f :: above else above) ∧
        (∀ x ∈ above, x ∈ g.interaction.keyboard.regions ∧ (forest g).Below x f) ∧
        (above.Pairwise fun x y => (forest g).Below y x) ∧
        ∀ x ∈ g.interaction.keyboard.regions, (forest g).Below x f → x ≠ f → Live g x → x ∈ above := by
      rw [enclosingFrom]
      by_cases hd : some f = g.dialog
      · refine ⟨[], by rw [if_pos hd]; rfl, nofun, .nil, fun x _ hbelow hne hlive => ?_⟩
        exact absurd (below_antisymm h hbelow (hlive.1 f hd.symm)) hne
      · rw [if_neg hd]
        cases hp : g.parentLocation f with
        | none =>
          refine ⟨[], by cases fuel <;> rfl, nofun, .nil, fun x _ hbelow hne _ => ?_⟩
          exact absurd (below_top h hp hbelow).symm hne
        | some l =>
          have hparent : some l.parent = (g.parentLocation f).map ParentLocation.parent := by
            rw [hp, Option.map_some]
          have hfuel : qs.length ≤ fuel := by omega
          obtain ⟨above, hrun, hsound, houtwards, hcomplete⟩ := ih (mounted_owner h.linked hm hp) hfuel hparent
          have hkid : (forest g).Child l.parent f := ⟨l, h.linked.listed hm hp⟩
          rw [← hparent] at hrun
          refine ⟨above, ?_, fun x hx => ?_, houtwards, fun x hx hbelow hne hlive => ?_⟩
          · rw [Option.map_some, hrun]
            rfl
          · exact ⟨(hsound x hx).1, (hsound x hx).2.tail hkid⟩
          · exact hcomplete x hx ((below_parent h hp hne.symm).mp hbelow) hlive
    rw [habove]
    by_cases hregion : f ∈ g.interaction.keyboard.regions
    · rw [if_pos hregion]
      refine ⟨f :: above, rfl, ?_, List.pairwise_cons.mpr ⟨fun x hx => (hsound x hx).2, houtwards⟩, ?_⟩
      · intro x hx
        rcases List.mem_cons.mp hx with rfl | hx
        · exact ⟨hregion, .refl⟩
        · exact hsound x hx
      · intro x hx hbelow hlive
        by_cases hne : x = f
        · exact hne ▸ List.mem_cons_self
        · exact List.mem_cons_of_mem _ (hcomplete x hx hbelow hne hlive)
    · rw [if_neg hregion]
      refine ⟨above, rfl, hsound, houtwards, fun x hx hbelow hlive => ?_⟩
      exact hcomplete x hx hbelow (fun heq => hregion (heq ▸ hx)) hlive

theorem kind_exists (hm : (forest g).Mounted x) : ∃ kind, kindAt g x = some kind := by
  obtain ⟨n, hn⟩ := node_exists hm
  exact ⟨n.kind, by rw [kindAt, hn, Option.map_some]⟩

theorem declared_answers (hm : (forest g).Mounted x) :
    Answers g focused hit x ↔ ∃ s ∈ declared g focused x, hit s.keys = true := by
  obtain ⟨kind, hkind⟩ := kind_exists hm
  rw [Answers, declared, hkind]
  simp only [Option.some.injEq, exists_eq_left']
  cases kind with
  | split =>
    by_cases hfocused : focused = some x
    · simp [isDivider, shortcutsOf, hfocused]
    · simp [isDivider, hfocused]
  | _ => simp [isDivider, shortcutsOf]

theorem window_answers (hm : (forest g).Mounted x) :
    AnswersAnywhere g hit x ↔ ∃ s ∈ windowDeclared g x, s.scope = .window ∧ hit s.keys = true := by
  obtain ⟨kind, hkind⟩ := kind_exists hm
  rw [AnswersAnywhere, windowDeclared, hkind]
  simp only [Option.some.injEq, exists_eq_left']
  cases kind <;> simp [isDivider, shortcutsOf]

/-- The regions around focus, asked from the inside out. -/
theorem search_enclosing (h : Shape g) (enclosing : List ℕ) (hm : ∀ x ∈ enclosing, (forest g).Mounted x) :
    ∃ found compared, searchEnclosing g focused hit enclosing = .ok (found, compared) ∧
      (found = none → ∀ x ∈ enclosing, Live g x → ¬Answers g focused hit x) ∧
      ∀ c ∈ found, Live g c.region ∧ Answers g focused hit c.region ∧
        FirstHit hit (fun _ => true) (declared g focused c.region) c.index c.keys ∧
        ∃ front back, enclosing = front ++ c.region :: back ∧
          ∀ x ∈ front, Live g x → ¬Answers g focused hit x := by
  induction enclosing with
  | nil => exact ⟨none, 0, rfl, nofun, nofun⟩
  | cons x rest ih =>
    obtain ⟨hx, hrest⟩ := List.forall_mem_cons.mp hm
    obtain ⟨found, compared, hrun, hnone, hsome⟩ := ih hrest
    obtain ⟨live, hlive, hiff⟩ := region_live h hx
    -- a region that does not answer leaves it to the rest
    have pass (hpass : Live g x → ¬Answers g focused hit x) :
        (found = none → ∀ y ∈ x :: rest, Live g y → ¬Answers g focused hit y) ∧
        ∀ c ∈ found, Live g c.region ∧ Answers g focused hit c.region ∧
          FirstHit hit (fun _ => true) (declared g focused c.region) c.index c.keys ∧
          ∃ front back, x :: rest = front ++ c.region :: back ∧
            ∀ y ∈ front, Live g y → ¬Answers g focused hit y := by
      refine ⟨fun heq => List.forall_mem_cons.mpr ⟨hpass, hnone heq⟩, fun c hc => ?_⟩
      obtain ⟨hlive, hanswers, hfirst, front, back, rfl, hfront⟩ := hsome c hc
      exact ⟨hlive, hanswers, hfirst, x :: front, back, rfl, List.forall_mem_cons.mpr ⟨hpass, hfront⟩⟩
    rw [searchEnclosing, hlive]
    dsimp only [bind, Except.bind]
    cases live with
    | false =>
      have hdead : ¬Live g x := fun h => Bool.false_ne_true (hiff.mpr h)
      exact ⟨found, compared, hrun, pass fun h => absurd h hdead⟩
    | true =>
      rw [if_pos rfl]
      cases hfirst : firstHit hit (fun _ => true) 0 (declared g focused x) with
      | mk answer n =>
        have hanswer : (firstHit hit (fun _ => true) 0 (declared g focused x)).1 = answer := by rw [hfirst]
        cases answer with
        | none =>
          dsimp only
          rw [hrun]
          refine ⟨found, n + compared, rfl, pass fun _ hanswers => ?_⟩
          obtain ⟨s, hs, hhit⟩ := (declared_answers hx).mp hanswers
          rw [first_none.mp hanswer s hs rfl] at hhit
          cases hhit
        | some pair =>
          obtain ⟨index, keys⟩ := pair
          refine ⟨some ⟨x, index, keys⟩, n, rfl, nofun, fun c hc => ?_⟩
          obtain rfl := Option.some.inj hc
          obtain ⟨i, hi, hfirst⟩ := first_some hanswer
          rw [Nat.zero_add] at hi
          subst hi
          obtain ⟨s, hs, -, hhit, -⟩ := id hfirst
          have hanswers := (declared_answers hx).mpr ⟨s, List.mem_of_getElem? hs, hhit⟩
          exact ⟨hiff.mp rfl, hanswers, hfirst, [], rest, rfl, nofun⟩

theorem search_window (h : Shape g) (enclosing order : List ℕ) (hm : ∀ x ∈ order, (forest g).Mounted x) :
    ∃ candidates compared, searchWindow g enclosing hit order = .ok (candidates, compared) ∧
      ∀ c, c ∈ candidates ↔ c.region ∈ order ∧ c.region ∉ enclosing ∧ Live g c.region ∧
        (firstHit hit (fun s => s.scope = .window) 0 (windowDeclared g c.region)).1 =
          some (c.index, c.keys) := by
  induction order with
  | nil => exact ⟨[], 0, rfl, by simp⟩
  | cons x rest ih =>
    obtain ⟨hx, hrest⟩ := List.forall_mem_cons.mp hm
    obtain ⟨candidates, compared, hrun, hall⟩ := ih hrest
    obtain ⟨live, hlive, hiff⟩ := region_live h hx
    rw [searchWindow]
    by_cases henclosing : x ∈ enclosing
    · rw [if_pos henclosing]
      refine ⟨candidates, compared, hrun, fun c => ?_⟩
      rw [hall c, List.mem_cons]
      constructor
      · rintro ⟨hc, hrest⟩
        exact ⟨.inr hc, hrest⟩
      · rintro ⟨rfl | hc, hapart, hrest⟩
        · exact absurd henclosing hapart
        · exact ⟨hc, hapart, hrest⟩
    · rw [if_neg henclosing, hlive]
      dsimp only [bind, Except.bind]
      cases live with
      | false =>
        refine ⟨candidates, compared, hrun, fun c => ?_⟩
        rw [hall c, List.mem_cons]
        constructor
        · rintro ⟨hc, hrest⟩
          exact ⟨.inr hc, hrest⟩
        · rintro ⟨rfl | hc, hapart, hlive, hfirst⟩
          · exact absurd (hiff.mpr hlive) Bool.false_ne_true
          · exact ⟨hc, hapart, hlive, hfirst⟩
      | true =>
        rw [if_pos rfl, hrun]
        refine ⟨_, _, rfl, fun c => ?_⟩
        rw [List.mem_append, hall c, Option.mem_toList, Option.map_eq_some_iff]
        constructor
        · rintro (⟨⟨index, keys⟩, hfirst, rfl⟩ | ⟨hc, hrest⟩)
          · exact ⟨List.mem_cons_self, henclosing, hiff.mp rfl, hfirst⟩
          · exact ⟨List.mem_cons_of_mem _ hc, hrest⟩
        · rintro ⟨hc, hapart, hlive, hfirst⟩
          rcases List.mem_cons.mp hc with rfl | hc
          · exact .inl ⟨(c.index, c.keys), hfirst, rfl⟩
          · exact .inr ⟨hc, hapart, hlive, hfirst⟩

theorem latest_candidate (h : Shape g) (formed : Formed g) {nodes : List (Node K)} (doc : Document g nodes)
    {kept : Candidate} {rest : List Candidate} (hm : ∀ c ∈ kept :: rest, (forest g).Mounted c.region) :
    ∃ c, latestCandidate g kept rest = .ok c ∧ c ∈ kept :: rest ∧
      ∀ d ∈ kept :: rest, d.region ≠ c.region → Before (nodes.map (·.id)) d.region c.region := by
  induction rest generalizing kept with
  | nil =>
    refine ⟨kept, rfl, List.mem_cons_self, fun d hd hne => ?_⟩
    rw [List.mem_singleton] at hd
    exact absurd (congrArg _ hd) hne
  | cons next rest ih =>
    obtain ⟨hkept, hrest⟩ := List.forall_mem_cons.mp hm
    obtain ⟨hnext, hrest⟩ := List.forall_mem_cons.mp hrest
    -- the loser is before the winner, or the same region
    have goes {loser winner : Candidate} (hwinner : (forest g).Mounted winner.region)
        (hlast : loser.region ≠ winner.region → Before (nodes.map (·.id)) loser.region winner.region) :
        ∃ c, latestCandidate g winner rest = .ok c ∧ c ∈ winner :: rest ∧
          ∀ d ∈ loser :: winner :: rest, d.region ≠ c.region →
            Before (nodes.map (·.id)) d.region c.region := by
      obtain ⟨c, hrun, hc, hall⟩ := ih (List.forall_mem_cons.mpr ⟨hwinner, hrest⟩)
      refine ⟨c, hrun, hc, List.forall_mem_cons.mpr ⟨fun hne => ?_, hall⟩⟩
      by_cases heq : loser.region = winner.region
      · rw [heq] at hne ⊢
        exact hall winner List.mem_cons_self hne
      · by_cases hwon : winner.region = c.region
        · exact hwon ▸ hlast heq
        · exact before_trans doc.distinct (hlast heq) (hall winner List.mem_cons_self hwon)
    rw [latestCandidate]
    obtain ⟨first, hfirst⟩ := precedes_total h hkept hnext
    rw [hfirst]
    dsimp only [bind, Except.bind]
    cases first with
    | true =>
      obtain ⟨c, hrun, hc, hall⟩ := @goes kept next hnext fun hne => by
        obtain ⟨first, hrun, hiff⟩ := precedes_before h formed doc hkept hnext hne
        exact hiff.mp (Except.ok.inj (hrun.symm.trans hfirst))
      exact ⟨c, hrun, List.mem_cons_of_mem _ hc, hall⟩
    | false =>
      obtain ⟨c, hrun, hc, hall⟩ := @goes next kept hkept fun hne => by
        obtain ⟨first, hrun, hiff⟩ := precedes_before h formed doc hkept hnext hne.symm
        refine (before_total ((mem_document formed doc).mpr hnext) ((mem_document formed doc).mpr hkept)
          hne).resolve_right fun hbefore => ?_
        exact Bool.false_ne_true (Except.ok.inj (hfirst.symm.trans hrun) |>.trans (hiff.mpr hbefore))
      refine ⟨c, hrun, ?_, fun d hd => hall d ?_⟩
      · rcases List.mem_cons.mp hc with rfl | hc
        · exact List.mem_cons_self
        · exact List.mem_cons_of_mem _ (List.mem_cons_of_mem _ hc)
      · simp only [List.mem_cons] at hd ⊢
        tauto

structure Candidates (g : MountedGraph K) (enclosing : List ℕ) (hit : String → Bool) (c : Candidate) :
    Prop where
  listed : c.region ∈ g.interaction.keyboard.windowRegions
  apart : c.region ∉ enclosing
  live : Live g c.region
  first : (firstHit hit (fun s => s.scope = .window) 0 (windowDeclared g c.region)).1 = some (c.index, c.keys)

/-- Whatever order the regions of the window are read in, one candidate is kept. -/
theorem resolve_window (h : Shape g) (formed : Formed g) {nodes : List (Node K)} (doc : Document g nodes)
    (hwindow : ∀ x ∈ g.interaction.keyboard.windowRegions, (forest g).Mounted x) (enclosing : List ℕ)
    (hit : String → Bool) :
    ∃ kept : Option Candidate, (kept = none → ∀ c, ¬Candidates g enclosing hit c) ∧
      (∀ c ∈ kept, Candidates g enclosing hit c ∧ ∀ d, Candidates g enclosing hit d → d.region ≠ c.region →
        Before (nodes.map (·.id)) d.region c.region) ∧
      ∀ order : List ℕ, (∀ x, x ∈ order ↔ x ∈ g.interaction.keyboard.windowRegions) →
        ∃ compared, resolveWindow g order enclosing hit = .ok (kept, compared) := by
  have one (order : List ℕ) (horder : ∀ x, x ∈ order ↔ x ∈ g.interaction.keyboard.windowRegions) :
      ∃ kept compared, resolveWindow g order enclosing hit = .ok (kept, compared) ∧
        (kept = none → ∀ c, ¬Candidates g enclosing hit c) ∧
        ∀ c ∈ kept, Candidates g enclosing hit c ∧ ∀ d, Candidates g enclosing hit d → d.region ≠ c.region →
          Before (nodes.map (·.id)) d.region c.region := by
    have hm : ∀ x ∈ order, (forest g).Mounted x := fun x hx => hwindow x ((horder x).mp hx)
    obtain ⟨candidates, compared, hrun, hall⟩ := @search_window _ _ g hit h enclosing order hm
    have hiff (c : Candidate) : c ∈ candidates ↔ Candidates g enclosing hit c := by
      rw [hall c, horder]
      exact ⟨fun ⟨a, b, c, d⟩ => ⟨a, b, c, d⟩, fun ⟨a, b, c, d⟩ => ⟨a, b, c, d⟩⟩
    rw [resolveWindow, hrun]
    cases candidates with
    | nil => exact ⟨none, compared, rfl, fun _ c hc => List.not_mem_nil ((hiff c).mpr hc), nofun⟩
    | cons first rest =>
      obtain ⟨c, hlatest, hc, hlast⟩ := latest_candidate h formed doc
        fun c hc => hwindow c.region ((hiff c).mp hc).listed
      refine ⟨some c, compared, ?_, nofun, fun d hd => ?_⟩
      · dsimp only [bind, Except.bind]
        rw [hlatest]
        rfl
      · obtain rfl := Option.some.inj hd
        exact ⟨(hiff c).mp hc, fun d hd => hlast d ((hiff d).mpr hd)⟩
  obtain ⟨kept, compared, -, hnone, hsome⟩ := one g.interaction.keyboard.windowRegions.toList
    fun x => Finset.mem_toList
  refine ⟨kept, hnone, hsome, fun order horder => ?_⟩
  obtain ⟨kept', compared, hrun, hnone', hsome'⟩ := one order horder
  refine ⟨compared, ?_⟩
  rw [hrun]
  congr 2
  cases kept with
  | none =>
    cases kept' with
    | none => rfl
    | some d => exact absurd (hsome' d rfl).1 (hnone rfl d)
  | some c =>
    obtain ⟨hc, hlast⟩ := hsome c rfl
    cases kept' with
    | none => exact absurd hc (hnone' rfl c)
    | some d =>
      obtain ⟨hd, hlast'⟩ := hsome' d rfl
      have hregion : d.region = c.region := by
        by_contra hne
        exact before_asymm doc.distinct (hlast d hd hne) (hlast' c hc (Ne.symm hne))
      have hfirst := hd.first
      rw [hregion, hc.first] at hfirst
      obtain ⟨hindex, hkeys⟩ := Prod.mk.inj (Option.some.inj hfirst)
      cases c
      cases d
      congr 1
      simp_all

end Enclosing

section Resolves

variable {g : MountedGraph K} {nodes : List (Node K)} {focused : Option ℕ} {hit : String → Bool} {f x : ℕ}

theorem kind_mounted {kind : NodeKind K} (hkind : kindAt g x = some kind) : (forest g).Mounted x := by
  obtain ⟨n, hn, -⟩ := Option.map_eq_some_iff.mp hkind
  exact mounted_node hn

/-- A focus on a node that is gone is none. -/
def mountedFocus (g : MountedGraph K) (focused : Option ℕ) : Option ℕ :=
  focused.filter fun id => (g.nodes.get id).isSome

theorem mem_mounted_focus : f ∈ mountedFocus g focused ↔ f ∈ focused ∧ (forest g).Mounted f := by
  rw [mountedFocus, Option.mem_filter_iff, mounted_iff]

theorem encloses_mounted : Encloses g (mountedFocus g focused) x ↔ Encloses g focused x := by
  simp only [Encloses, mem_mounted_focus, and_assoc, and_self_left]

theorem answers_mounted : Answers g (mountedFocus g focused) hit x ↔ Answers g focused hit x := by
  refine exists_congr fun kind => and_congr_right fun hkind => and_congr_left fun _ => ?_
  have hm := kind_mounted hkind
  have hiff : x ∈ mountedFocus g focused ↔ x ∈ focused := by rw [mem_mounted_focus, and_iff_left hm]
  exact imp_congr_right fun _ => hiff

theorem enclosing_regions (h : Shape g) (focused : Option ℕ) :
    ∃ enclosing, enclosingFrom g g.climb (mountedFocus g focused) = .ok enclosing ∧
      (∀ x ∈ enclosing, x ∈ g.interaction.keyboard.regions ∧ Encloses g focused x) ∧
      (enclosing.Pairwise fun x y => (forest g).Below y x) ∧
      ∀ x ∈ g.interaction.keyboard.regions, Encloses g focused x → Live g x → x ∈ enclosing := by
  cases hfocus : mountedFocus g focused with
  | none =>
    refine ⟨[], rfl, nofun, .nil, ?_⟩
    rintro x - ⟨f, hf, hm, -⟩
    have hmem := mem_mounted_focus.mpr ⟨hf, hm⟩
    rw [hfocus] at hmem
    cases hmem
  | some f =>
    obtain ⟨hf, hm⟩ := mem_mounted_focus.mp hfocus
    obtain ⟨qs, up, enough⟩ := way_short h hm
    obtain ⟨enclosing, hrun, surrounding⟩ := enclosing_from h hm up enough
    refine ⟨enclosing, hrun, fun x hx => ?_, surrounding.outwards, ?_⟩
    · exact ⟨(surrounding.sound x hx).1, f, hf, hm, (surrounding.sound x hx).2⟩
    · rintro x hx ⟨f', hf', -, hbelow⟩ hlive
      obtain rfl := Option.some.inj (hf.symm.trans hf')
      exact surrounding.complete x hx hbelow hlive

omit [DecidableEq K] in
theorem answers_listed (armed : Armed (kindAt g) (ledger g)) (hx : Answers g focused hit x) :
    x ∈ g.interaction.keyboard.regions := by
  obtain ⟨kind, hkind, -, s, hs, -⟩ := hx
  exact armed.regions.mpr ⟨kind, hkind, List.ne_nil_of_mem hs⟩

omit [DecidableEq K] in
theorem window_listed (armed : Armed (kindAt g) (ledger g)) (hx : AnswersAnywhere g hit x) :
    x ∈ g.interaction.keyboard.windowRegions := by
  obtain ⟨kind, hkind, hdivider, s, hs, hscope, -⟩ := hx
  refine armed.windowRegions.mpr ⟨kind, hkind, ?_⟩
  cases kind with
  | popover => exact List.any_eq_true.mpr ⟨s, hs, decide_eq_true hscope⟩
  | split => cases hdivider
  | _ => cases hs

omit [DecidableEq K] in
theorem window_region (armed : Armed (kindAt g) (ledger g))
    (hx : x ∈ g.interaction.keyboard.windowRegions) : x ∈ g.interaction.keyboard.regions := by
  obtain ⟨kind, hkind, harms⟩ := armed.windowRegions.mp hx
  refine armed.regions.mpr ⟨kind, hkind, fun hnil => ?_⟩
  cases kind with
  | popover =>
    rw [shortcutsOf] at hnil
    rw [armsWindow, hnil] at harms
    cases harms
  | _ => cases harms

theorem candidate_elsewhere (armed : Armed (kindAt g) (ledger g)) {enclosing : List ℕ}
    (complete : ∀ x ∈ g.interaction.keyboard.regions, Encloses g focused x → Live g x → x ∈ enclosing)
    {c : Candidate} (hc : Candidates g enclosing hit c) : Elsewhere g focused hit c.region := by
  obtain ⟨kind, hkind, -⟩ := armed.windowRegions.mp hc.listed
  refine ⟨fun hin => hc.apart (complete _ (window_region armed hc.listed) hin hc.live), hc.live, ?_⟩
  obtain ⟨i, -, s, hs, hscope, hhit, -⟩ := first_some hc.first
  exact (window_answers (kind_mounted hkind)).mpr
    ⟨s, List.mem_of_getElem? hs, of_decide_eq_true hscope, hhit⟩

theorem elsewhere_candidate (armed : Armed (kindAt g) (ledger g)) {enclosing : List ℕ}
    (sound : ∀ x ∈ enclosing, x ∈ g.interaction.keyboard.regions ∧ Encloses g focused x)
    (hx : Elsewhere g focused hit x) : ∃ c, Candidates g enclosing hit c ∧ c.region = x := by
  obtain ⟨kind, hkind, -⟩ := id hx.answers
  obtain ⟨s, hs, hscope, hhit⟩ := (window_answers (kind_mounted hkind)).mp hx.answers
  cases hfirst : (firstHit hit (fun s => s.scope = .window) 0 (windowDeclared g x)).1 with
  | none =>
    rw [first_none.mp hfirst s hs (decide_eq_true hscope)] at hhit
    cases hhit
  | some pair =>
    exact ⟨⟨x, pair.1, pair.2⟩, ⟨window_listed armed hx.answers, fun hin => hx.apart (sound x hin).2,
      hx.live, hfirst⟩, rfl⟩

def Names (g : MountedGraph K) (hit : String → Bool) (m : ShortcutMatch) : Prop :=
  m.event = m.region ||| shortcutEventBit ∧ ∃ kind s, kindAt g m.region = some kind ∧
    (shortcutsOf kind)[m.index]? = some s ∧ hit s.keys = true ∧ m.keys = s.keys

omit [DecidableEq K] in
theorem declared_named {index : ℕ} {s : Shortcut} (hs : (declared g focused x)[index]? = some s) :
    ∃ kind, kindAt g x = some kind ∧ (shortcutsOf kind)[index]? = some s := by
  unfold declared at hs
  split at hs
  · rename_i hkind
    exact ⟨_, hkind, hs⟩
  · rename_i hkind
    split at hs
    · exact ⟨_, hkind, hs⟩
    · cases hs
  · cases hs

omit [DecidableEq K] in
theorem window_named {index : ℕ} {s : Shortcut} (hs : (windowDeclared g x)[index]? = some s) :
    ∃ kind, kindAt g x = some kind ∧ (shortcutsOf kind)[index]? = some s := by
  unfold windowDeclared at hs
  split at hs
  · rename_i hkind
    exact ⟨_, hkind, hs⟩
  · cases hs

/-- What a keystroke is answered with, whatever order the regions of the window are read in. -/
structure Resolved (g : MountedGraph K) (ids : List ℕ) (focused : Option ℕ) (types : Bool)
    (hit : String → Bool) (answer : Option ShortcutMatch) : Prop where
  runs : ∀ order counters, (∀ x, x ∈ order ↔ x ∈ g.interaction.keyboard.windowRegions) →
    ∃ counters', resolveShortcut g order focused types hit counters = .ok (answer, counters')
  text : types = true → Editing g focused → answer = none
  reaches : ¬(types = true ∧ Editing g focused) → Reaches g ids focused hit (answer.map (·.region))
  names : ∀ m ∈ answer, Names g hit m

theorem editing_iff : ((mountedFocus g focused).bind (kindAt g)).any editable = true ↔ Editing g focused := by
  rw [Option.any_eq_true, Editing]
  constructor
  · rintro ⟨kind, hkind, heditable⟩
    obtain ⟨f, hf, hkind⟩ := Option.bind_eq_some_iff.mp hkind
    exact ⟨f, (mem_mounted_focus.mp hf).1, kind, hkind, heditable⟩
  · rintro ⟨f, hf, kind, hkind, heditable⟩
    have hmounted : f ∈ mountedFocus g focused := mem_mounted_focus.mpr ⟨hf, kind_mounted hkind⟩
    exact ⟨kind, Option.bind_eq_some_iff.mpr ⟨f, hmounted, hkind⟩, heditable⟩

def Candidate.answer (c : Candidate) : ShortcutMatch :=
  ⟨c.region, c.region ||| shortcutEventBit, c.index, c.keys⟩

theorem resolve_runs {types : Bool} {order enclosing : List ℕ} {found kept : Option Candidate}
    {compared further : ℕ}
    (hplain : ¬(((mountedFocus g focused).bind (kindAt g)).any editable && types) = true)
    (henclosing : enclosingFrom g g.climb (mountedFocus g focused) = .ok enclosing)
    (hsearch : searchEnclosing g (mountedFocus g focused) hit enclosing = .ok (found, compared))
    (hwindow : found = none → resolveWindow g order enclosing hit = .ok (kept, further))
    (counters : KeyboardCounters) :
    ∃ counters', resolveShortcut g order focused types hit counters =
      .ok ((found.or kept).map Candidate.answer, counters') := by
  have hfocus : (focused.filter fun id => (g.nodes.get id).isSome) = mountedFocus g focused := rfl
  rw [resolveShortcut, hfocus]
  simp only [if_neg hplain]
  rw [henclosing]
  dsimp only [bind, Except.bind]
  rw [hsearch]
  cases found with
  | some c => exact ⟨_, rfl⟩
  | none =>
    dsimp only
    rw [hwindow rfl]
    cases kept with
    | none => exact ⟨_, rfl⟩
    | some c => exact ⟨_, rfl⟩

theorem resolve (h : Shape g) (formed : Formed g) (armed : Armed (kindAt g) (ledger g)) (doc : Document g nodes)
    (focused : Option ℕ) (types : Bool) (hit : String → Bool) :
    ∃ answer, Resolved g (nodes.map (·.id)) focused types hit answer := by
  by_cases htext : types = true ∧ Editing g focused
  · refine ⟨none, fun order counters _ => ?_, fun _ _ => rfl, fun hnot => absurd htext hnot, nofun⟩
    refine ⟨{ counters with offered := counters.offered + 1 }, ?_⟩
    rw [resolveShortcut]
    exact if_pos (by rw [Bool.and_eq_true]; exact ⟨editing_iff.mpr htext.2, htext.1⟩)
  have hplain : ¬(((mountedFocus g focused).bind (kindAt g)).any editable && types) = true := by
    rw [Bool.and_eq_true, editing_iff]
    exact fun htyped => htext htyped.symm
  obtain ⟨enclosing, henclosing, sound, outwards, complete⟩ := enclosing_regions h focused
  have hregions : ∀ x ∈ enclosing, (forest g).Mounted x := by
    intro x hx
    obtain ⟨kind, hkind, -⟩ := armed.regions.mp (sound x hx).1
    exact kind_mounted hkind
  obtain ⟨found, compared, hsearch, hnone, hsome⟩ :=
    @search_enclosing _ _ g (mountedFocus g focused) hit h enclosing hregions
  cases found with
  | some c =>
    obtain ⟨hlive, hanswers, ⟨s, hs, -, hhit, hkeys, -⟩, front, back, hsplit, hfront⟩ := hsome c rfl
    have hmem : c.region ∈ enclosing := hsplit ▸ List.mem_append_right _ List.mem_cons_self
    refine ⟨some c.answer, fun order counters _ => ?_, fun htyped hediting => absurd ⟨htyped, hediting⟩ htext,
      fun _ => ?_, fun m hm => ?_⟩
    · exact @resolve_runs _ _ g focused hit types order enclosing (some c) none compared 0 hplain henclosing
        hsearch nofun counters
    · refine .inner ⟨(sound _ hmem).2, hlive, answers_mounted.mp hanswers⟩ fun y hy => ?_
      have hy' : y ∈ enclosing := complete y (answers_listed armed hy.answers) hy.encloses hy.live
      rw [hsplit] at hy' outwards
      rcases List.mem_append.mp hy' with hy' | hy'
      · exact absurd (answers_mounted.mpr hy.answers) (hfront y hy' hy.live)
      · rcases List.mem_cons.mp hy' with rfl | hy'
        · exact .refl
        · exact (List.pairwise_cons.mp (List.pairwise_append.mp outwards).2.1).1 y hy'
    · obtain rfl := Option.some.inj hm
      obtain ⟨kind, hkind, hshortcut⟩ := declared_named hs
      exact ⟨rfl, kind, s, hkind, hshortcut, hhit, hkeys.symm⟩
  | none =>
    have hinner (y : ℕ) : ¬Inner g focused hit y := fun hy =>
      hnone rfl y (complete y (answers_listed armed hy.answers) hy.encloses hy.live) hy.live
        (answers_mounted.mpr hy.answers)
    have hwindow : ∀ x ∈ g.interaction.keyboard.windowRegions, (forest g).Mounted x := by
      intro x hx
      obtain ⟨kind, hkind, -⟩ := armed.windowRegions.mp hx
      exact kind_mounted hkind
    obtain ⟨kept, hempty, hkept, hruns⟩ := resolve_window h formed doc hwindow enclosing hit
    refine ⟨kept.map Candidate.answer, fun order counters horder => ?_,
      fun htyped hediting => absurd ⟨htyped, hediting⟩ htext, fun _ => ?_, fun m hm => ?_⟩
    · obtain ⟨n, hrun⟩ := hruns order horder
      exact resolve_runs hplain henclosing hsearch (fun _ => hrun) counters
    · cases kept with
      | none =>
        refine .nothing hinner fun y hy => ?_
        obtain ⟨c, hc, -⟩ := elsewhere_candidate armed sound hy
        exact hempty rfl c hc
      | some c =>
        obtain ⟨hc, hlast⟩ := hkept c rfl
        refine .elsewhere hinner (candidate_elsewhere armed complete hc) fun y hy hne => ?_
        obtain ⟨d, hd, rfl⟩ := elsewhere_candidate armed sound hy
        exact hlast d hd hne
    · obtain ⟨c, hc, rfl⟩ := Option.map_eq_some_iff.mp hm
      obtain ⟨i, hi, s, hs, -, hhit, hkeys, -⟩ := first_some (hkept c hc).1.first
      rw [Nat.zero_add] at hi
      subst hi
      obtain ⟨kind, hkind, hshortcut⟩ := window_named hs
      exact ⟨rfl, kind, s, hkind, hshortcut, hhit, hkeys.symm⟩

/-- The document order of a graph, and the shortcut that each keystroke reaches. -/
structure ShortcutsResolve (g : MountedGraph K) : Prop where
  resolves : ∃ nodes, nodesPreorder g = .ok nodes ∧
    (∀ a b, (forest g).Mounted a → (forest g).Mounted b → a ≠ b →
      ∃ first, precedes g a b = .ok first ∧ (first = true ↔ Before (nodes.map (·.id)) a b)) ∧
    ∀ focused types hit, ∃ answer, Resolved g (nodes.map (·.id)) focused types hit answer

/-- Whatever popovers are open: the shortcut a keystroke reaches is the innermost around focus, else
the last in the document among the window's, in whatever order these are read. -/
theorem shortcuts_resolve (hreach : Reachable (accepting K) g) (i : Interaction) :
    ShortcutsResolve { g with interaction := { i with keyboard := g.interaction.keyboard } } := by
  have shape := shape_reachable hreach
  have form := formed_reachable hreach
  have h : Shape { g with interaction := { i with keyboard := g.interaction.keyboard } } :=
    ⟨shape.orders, shape.linked, shape.weighed, shape.issued⟩
  have formed : Formed { g with interaction := { i with keyboard := g.interaction.keyboard } } :=
    ⟨form.named, form.counted, form.ordered⟩
  have armed := (indexed_reachable hreach).2.armed
  obtain ⟨nodes, doc⟩ := document_exists h formed
  have hbefore (a b : ℕ) := fun ha hb hne => precedes_before (a := a) (b := b) h formed doc ha hb hne
  exact ⟨nodes, doc.run, hbefore, resolve h formed armed doc⟩

/-- A divider beside a region that has a shortcut for the window. -/
theorem divider_resolves : ShortcutsResolve { afterPatch (.empty : MountedGraph ℕ) shortcutsMounted with
    interaction := { MountedGraph.empty.interaction (K := ℕ) with
      keyboard := (afterPatch (.empty : MountedGraph ℕ) shortcutsMounted).interaction.keyboard } } :=
  shortcuts_resolve shortcuts_reached _

end Resolves

end ShortcutSearches
