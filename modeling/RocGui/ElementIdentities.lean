import RocGui.KeyedIdentities

/-! Element identities: the cached path of a node is the one recomputed from the root, and
no two nodes share one. -/
namespace ElementIdentities

open FiniteMaps KeyedLists Methods KeyedOrder GraphState FragmentValidation GraphPatches
open FragmentTrees GraphForests GraphMounting GraphLedgers GraphRuns GraphListings KeyedListings
open SiblingSegments GraphSegments GraphIdentities KeyedIdentities PointerTrees Transitions

variable {K : Type}

section Paths

variable {g : MountedGraph K} {x : ℕ} {path path' : ElementIdentity}

/-- The cached keys from the root to a node. -/
inductive PathTo (g : MountedGraph K) : ℕ → ElementIdentity → Prop where
  | top {x : ℕ} {s : IdentitySegment} : g.parentLocation x = none → g.cachedSegment x = some s →
      PathTo g x [s]
  | under {x : ℕ} {s : IdentitySegment} {l : ParentLocation K} {path : ElementIdentity} :
      g.parentLocation x = some l → PathTo g l.parent path → g.cachedSegment x = some s →
      PathTo g x (path ++ [s])

theorem path_ne_nil (h : PathTo g x path) : path ≠ [] := by
  cases h with
  | top => exact List.cons_ne_nil _ _
  | under => simp

theorem path_unique (h : PathTo g x path) (h' : PathTo g x path') : path = path' := by
  induction h generalizing path' with
  | top hp hs =>
    cases h' with
    | top hp' hs' => rw [Option.some.inj (hs.symm.trans hs')]
    | under hp' => cases hp.symm.trans hp'
  | under hp _ hs ih =>
    cases h' with
    | top hp' => cases hp.symm.trans hp'
    | under hp' hpath' hs' =>
      obtain rfl := Option.some.inj (hp.symm.trans hp')
      rw [ih hpath', Option.some.inj (hs.symm.trans hs')]

theorem path_of_identity {ε : Type} {fuel : ℕ}
    (h : g.identityFrom fuel (some x) = (.ok path : Except (Failure ε) _)) : PathTo g x path := by
  induction fuel generalizing x path with
  | zero => cases h
  | succ fuel ih =>
    rw [MountedGraph.identityFrom] at h
    split at h
    · cases h
    rename_i e he
    obtain ⟨above, habove, hpath⟩ := except_bind_ok.mp h
    obtain rfl : above ++ [e.segment] = path := Except.ok.inj hpath
    cases hp : e.parent with
    | none =>
      rw [hp, Option.map_none] at habove
      have hnil : above = [] := by
        cases fuel with
        | zero => exact (Except.ok.inj habove).symm
        | succ fuel => exact (Except.ok.inj habove).symm
      subst hnil
      exact .top ((location_eq he).trans hp) (segment_eq he)
    | some l =>
      rw [hp, Option.map_some] at habove
      exact .under ((location_eq he).trans hp) (ih habove) (segment_eq he)

theorem identity_of_path {ε : Type} {fuel : ℕ} (h : PathTo g x path) (enough : path.length ≤ fuel) :
    g.identityFrom fuel (some x) = (.ok path : Except (Failure ε) _) := by
  have entry {y : ℕ} {s : IdentitySegment} (hs : g.cachedSegment y = some s) :
      ∃ e, g.nodes.get y = some e ∧ e.segment = s := Option.map_eq_some_iff.mp hs
  induction h generalizing fuel with
  | top hp hs =>
    obtain ⟨e, he, rfl⟩ := entry hs
    obtain ⟨fuel, rfl⟩ : ∃ n, fuel = n + 1 := ⟨fuel - 1, by simp at enough; omega⟩
    have hparent : e.parent = none := (location_eq he).symm.trans hp
    have habove : g.identityFrom fuel none = (.ok [] : Except (Failure ε) _) := by
      cases fuel <;> rfl
    rw [MountedGraph.identityFrom, he]
    simp only [hparent, Option.map_none, habove]
    rfl
  | @under x s l path hp hpath hs ih =>
    obtain ⟨e, he, rfl⟩ := entry hs
    rw [List.length_append, List.length_singleton] at enough
    obtain ⟨fuel, rfl⟩ : ∃ n, fuel = n + 1 := ⟨fuel - 1, by omega⟩
    have hparent : e.parent = some l := (location_eq he).symm.trans hp
    rw [MountedGraph.identityFrom, he]
    simp only [hparent, Option.map_some, ih (show path.length ≤ fuel by omega)]
    rfl

variable [DecidableEq K]

theorem path_exists (h : Shape g) (hm : (forest g).Mounted x) :
    ∃ path, PathTo g x path ∧ path.length ≤ g.climb := by
  obtain ⟨qs, up⟩ := way_up h.linked h.weighed (finite_mounted g) hm
  have hlength := way_length h.linked h.weighed up hm (s := g.nodes.keys)
    fun q hq => FiniteMap.mem_keys.mpr (mounted_iff.mp hq)
  have key {y : ℕ} (hy : (forest g).Mounted y) : ∃ s, g.cachedSegment y = some s := by
    rw [← Option.isSome_iff_exists, MountedGraph.cachedSegment, Option.isSome_map]
    exact mounted_iff.mp hy
  suffices ∃ path, PathTo g x path ∧ path.length = qs.length by
    obtain ⟨path, hpath, heq⟩ := this
    exact ⟨path, hpath, heq ▸ hlength.trans (Nat.le_succ _)⟩
  clear hlength
  generalize hcur : some x = cur at up
  induction up generalizing x with
  | top => cases hcur
  | @up q qs rest ih =>
    obtain rfl := Option.some.inj hcur
    obtain ⟨s, hs⟩ := key hm
    change UpTo ParentLocation.parent g.parentLocation ((g.parentLocation x).map _) qs at rest
    cases hp : g.parentLocation x with
    | none =>
      rw [hp, Option.map_none] at rest
      cases rest
      exact ⟨[s], .top hp hs, rfl⟩
    | some l =>
      obtain ⟨path, hpath, hlen⟩ := ih (x := l.parent) (mounted_owner h.linked hm hp)
        (by simp [forest, hp])
      exact ⟨path ++ [s], .under hp hpath hs, by simp [hlen]⟩

theorem identity_iff {ε : Type} (h : Shape g) (hm : (forest g).Mounted x) :
    g.identity x = (.ok path : Except (Failure ε) _) ↔ PathTo g x path := by
  constructor
  · exact path_of_identity
  · intro hpath
    obtain ⟨path', hpath', hlen⟩ := path_exists h hm
    rw [path_unique hpath hpath']
    exact identity_of_path hpath' hlen

end Paths

section Recomputing

variable [DecidableEq K] {g : MountedGraph K} {x y : ℕ} {path : ElementIdentity}

/-- The identity found by walking down from the root with the sibling keys of every node. -/
inductive Recomputed (g : MountedGraph K) : ℕ → ElementIdentity → Prop where
  | root {r : ℕ} {n : Node K} : g.root = some r → g.node r = some n → Recomputed g r [.of n 0 0]
  | child {p c : ℕ} {s : IdentitySegment} {path : ElementIdentity}
      {keyed : List (ℕ × IdentitySegment)} : Recomputed g p path →
      g.childSegments p = (.ok keyed : Except (Failure Empty) _) → (c, s) ∈ keyed →
      Recomputed g c (path ++ [s])

theorem child_segments_eq {ε : Type} (h : Shape g) (hm : (forest g).Mounted x) :
    g.childSegments x = (.ok (siblingSegments g.node ∅ 0 (((forest g).kids x).map Prod.fst)) :
      Except (Failure ε) _) := by
  obtain ⟨e, he⟩ := Option.isSome_iff_exists.mp (mounted_iff.mp hm)
  have hnode : g.node x = some e.node := by
    rw [MountedGraph.node, he]
    rfl
  rw [MountedGraph.childSegments, hnode]
  simp only [children_of h, Except.map]

theorem recomputed_path (h : Shape g) (s : Segmented g) (hx : Recomputed g x path) :
    (forest g).Mounted x ∧ PathTo g x path := by
  induction hx with
  | root hr hn =>
    obtain ⟨hm, hp⟩ := h.linked.rooted _ hr
    exact ⟨hm, .top hp (s.root _ hr _ hn)⟩
  | child _ hkeyed hc ih =>
    obtain ⟨hm, hpath⟩ := ih
    rw [child_segments_eq h hm] at hkeyed
    obtain rfl := Except.ok.inj hkeyed
    obtain ⟨⟨c, l⟩, hkid, rfl⟩ := List.mem_map.mp (mem_children hc)
    obtain ⟨hmc, hl⟩ := h.linked.placed hkid
    have howner := h.linked.owned hkid
    subst howner
    exact ⟨hmc, .under hl hpath (s.agrees _ _ _ hc)⟩

theorem key_of_child (h : Shape g) (s : Segmented g) {l : ParentLocation K} {key : IdentitySegment}
    (hp : g.parentLocation x = some l) (hkey : g.cachedSegment x = some key) :
    (x, key) ∈ siblingSegments g.node ∅ 0 (((forest g).kids l.parent).map Prod.fst) := by
  have hm := mounted_iff.mpr (mounted_of_parent hp)
  have hkid := h.linked.listed hm hp
  have known : (g.node x).isSome := by
    rw [MountedGraph.node, Option.isSome_map]
    exact mounted_iff.mp hm
  obtain ⟨key', hmem⟩ := segment_exists g.node (List.mem_map_of_mem (f := Prod.fst) hkid) known ∅ 0
  have := s.agrees _ _ _ hmem
  rwa [Option.some.inj (hkey.symm.trans this)]

theorem path_recomputed (h : Shape g) (s : Segmented g) (hm : (forest g).Mounted x)
    (hx : PathTo g x path) : Recomputed g x path := by
  induction hx with
  | @top x key hp hkey =>
    have hroot := h.linked.unparented hm hp
    obtain ⟨n, hn⟩ : ∃ n, g.node x = some n := by
      rw [← Option.isSome_iff_exists, MountedGraph.node, Option.isSome_map]
      exact mounted_iff.mp hm
    have := s.root x hroot n hn
    rw [Option.some.inj (hkey.symm.trans this)]
    exact .root hroot hn
  | @under x key l path hp _ hkey ih =>
    have ho := mounted_owner h.linked hm hp
    exact .child (ih ho) (child_segments_eq h ho) (key_of_child h s hp hkey)

def SiblingsApart (g : MountedGraph K) : Prop := ∀ x y l m s, g.parentLocation x = some l →
  g.parentLocation y = some m → l.parent = m.parent → g.cachedSegment x = some s →
  g.cachedSegment y = some s → x = y

theorem siblings_path_apart (h : Shape g) (siblings : SiblingsApart g) (hx : PathTo g x path)
    (hy : PathTo g y path) : x = y := by
  have mounted {z : ℕ} {key : IdentitySegment} (hz : g.cachedSegment z = some key) :
      (forest g).Mounted z := by
    rw [mounted_iff, ← Option.isSome_map]
    exact Option.isSome_of_eq_some hz
  induction hx generalizing y with
  | top hp hkey =>
    generalize hsame : [_] = path at hy
    cases hy with
    | top hp' hkey' =>
      exact Option.some.inj ((h.linked.unparented (mounted hkey) hp).symm.trans
        (h.linked.unparented (mounted hkey') hp'))
    | under hp' hpath' hkey' =>
      exact absurd (List.append_eq_singleton_iff.mp hsame.symm) (by simp [path_ne_nil hpath'])
  | @under x key l path hp hpath hkey ih =>
    generalize hsame : path ++ [key] = path' at hy
    cases hy with
    | top hp' hkey' =>
      exact absurd (List.append_eq_singleton_iff.mp hsame) (by simp [path_ne_nil hpath])
    | under hp' hpath' hkey' =>
      obtain ⟨rfl, heq⟩ := List.append_inj' hsame rfl
      obtain rfl := List.cons.inj heq |>.1
      exact siblings x y _ _ key hp hp' (ih hpath') hkey hkey'

theorem segmented_siblings (h : Shape g) (s : Segmented g) (exact : ExactIndices g) :
    SiblingsApart g := by
  intro x y l m key hp hp' howner hkey hkey'
  have once (a b i : ℕ) (ha : (g.node a).map (·.kind) = some (.boundary i))
      (hb : (g.node b).map (·.kind) = some (.boundary i)) : a = b :=
    Option.some.inj (((exact.boundaries i a).mpr ha).symm.trans ((exact.boundaries i b).mpr hb))
  have hx := key_of_child h s hp hkey
  have hy := key_of_child h s hp' hkey'
  rw [← howner] at hy
  exact segments_distinct once hx hy

theorem path_apart (h : Shape g) (s : Segmented g) (exact : ExactIndices g) (hx : PathTo g x path)
    (hy : PathTo g y path) : x = y :=
  siblings_path_apart h (segmented_siblings h s exact) hx hy

/-- What is cached is what would be recomputed, and tells the mounted nodes apart. -/
structure IdentitiesCached (g : MountedGraph K) : Prop where
  keys : ∀ p keyed, g.childSegments p = (.ok keyed : Except (Failure Empty) _) →
    ∀ c s, (c, s) ∈ keyed → g.cachedSegment c = some s
  recomputed : ∀ x, (g.nodes.get x).isSome →
    ∃ path, g.identity x = (.ok path : Except (Failure Empty) _) ∧
      ∀ path', Recomputed g x path' ↔ path' = path
  apart : ∀ x y path, g.identity x = (.ok path : Except (Failure Empty) _) →
    g.identity y = (.ok path : Except (Failure Empty) _) → x = y

theorem identities_cached (h : Shape g) (s : Segmented g) (exact : ExactIndices g) :
    IdentitiesCached g where
  keys p keyed hkeyed c key hc := by
    by_cases hm : (forest g).Mounted p
    · rw [child_segments_eq h hm] at hkeyed
      obtain rfl := Except.ok.inj hkeyed
      exact s.agrees p c key hc
    · have hnode : g.node p = none := by
        rw [MountedGraph.node, Option.map_eq_none_iff]
        rwa [mounted_iff, Option.not_isSome_iff_eq_none] at hm
      rw [MountedGraph.childSegments, hnode] at hkeyed
      obtain rfl := Except.ok.inj hkeyed
      cases hc
  recomputed x hx := by
    have hm := mounted_iff.mpr hx
    obtain ⟨path, hpath, -⟩ := path_exists h hm
    refine ⟨path, (identity_iff h hm).mpr hpath, fun path' => ⟨fun hpath' => ?_, ?_⟩⟩
    · exact path_unique (recomputed_path h s hpath').2 hpath
    · rintro rfl
      exact path_recomputed h s hm hpath
  apart x y path hx hy := path_apart h s exact (path_of_identity hx) (path_of_identity hy)

theorem reachable_identities (h : Reachable ((accepting K).restrict InstallsItems) g) :
    IdentitiesCached g := by
  obtain ⟨shape, -, segmented⟩ := segmented_reachable h
  exact identities_cached shape segmented (reachable_exact (reachable_of_restrict h))

end Recomputing

section Moved

def twoItemColumn : Patch ℕ := .mount 1
  [⟨1, .keyedColumn "" 0 [7, 8], [2, 4]⟩, ⟨2, .boundary 5, [3]⟩, ⟨3, .text, []⟩,
    ⟨4, .boundary 6, [5]⟩, ⟨5, .text, []⟩]

def contentForSecond : Patch ℕ := .replace 4 6 [⟨6, .boundary 6, [7]⟩, ⟨7, .text, []⟩]

theorem second_item_cached :
    IdentitiesCached (afterPatch (afterPatch .empty twoItemColumn) contentForSecond) := by
  refine reachable_identities (reachable_step (reachable_step (reachable_initial _)
    (e := twoItemColumn) ⟨trivial, accepted_step _ (by decide +kernel)⟩)
    (e := contentForSecond) ⟨?_, accepted_step _ (by decide +kernel)⟩)
  intro container key instanceId hparent
  have hold : (afterPatch .empty twoItemColumn).parentLocation 4 = some (.keyed 1 8 6) := by
    decide +kernel
  cases hold.symm.trans hparent
  exact ⟨⟨6, .boundary 6, [7]⟩, .inl (by simp), rfl, rfl⟩

def textForSecond : Patch ℕ := .replace 4 6 [⟨6, .text, []⟩]

def secondFirst : Patch ℕ := .keyed 1 0 1 [.move 8 (some 7)]

theorem moved_text : ∃ g : MountedGraph ℕ, Reachable (accepting ℕ) g ∧
    g.cachedSegment 6 = some (.positional 13 1) ∧
    (g.childSegments 1 : Except (Failure Empty) _).toOption =
      some [(6, .positional 13 0), (2, .boundary 5)] := by
  have first := reachable_step (reachable_initial (accepting ℕ))
    (accepted_step (g := .empty) twoItemColumn (by decide +kernel))
  have second := reachable_step first (accepted_step textForSecond (by decide +kernel))
  have third := reachable_step second (accepted_step secondFirst (by decide +kernel))
  exact ⟨_, third, by decide +kernel, by decide +kernel⟩

/-- An item that is no boundary keeps the key of its old position when it moves. -/
theorem moved_text_stale :
    ¬∀ g : MountedGraph ℕ, Reachable (accepting ℕ) g → IdentitiesCached g := by
  intro claim
  obtain ⟨g, reached, cached, segments⟩ := moved_text
  cases hkeyed : (g.childSegments 1 : Except (Failure Empty) _) with
  | error e =>
    rw [hkeyed] at segments
    cases segments
  | ok keyed =>
    rw [hkeyed] at segments
    obtain rfl := Option.some.inj segments
    have := (claim g reached).keys 1 _ hkeyed 6 (.positional 13 0) List.mem_cons_self
    rw [cached] at this
    cases this

end Moved

end ElementIdentities
