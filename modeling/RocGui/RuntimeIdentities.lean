import RocGui.FocusLandings

/-! The identities the runtime keeps beside the graph: how a patch brings them up to date, and
what they are when the whole graph is walked again. -/
namespace RuntimeIdentities

open FiniteMaps Methods GraphState GraphPatches GraphForests GraphMounting SiblingSegments
open ElementIdentities FocusLandings PointerTrees

variable {K : Type} [DecidableEq K]

section Updates

/-- The key of a node after those above it; a boundary starts anew. -/
def extend (parent : ElementIdentity) (own : IdentitySegment) : ElementIdentity :=
  (match own with
    | .boundary _ => []
    | _ => parent) ++ [own]

variable (g : MountedGraph K)

/-- `identities_below`; the top of its stack comes first. -/
def identitiesBelow : ℕ → List (ℕ × ElementIdentity) → FiniteMap ℕ ElementIdentity →
    Reading K (FiniteMap ℕ ElementIdentity)
  | _, [], into => .ok into
  | 0, _ :: _, _ => .error .diverges
  | fuel + 1, (id, path) :: pending, into => do
    let identity := match (g.node id).map (·.kind) with
      | some (.boundary instanceId) => [.boundary instanceId]
      | _ => path
    let children ← g.childSegments id
    identitiesBelow fuel
      ((children.map fun (child, segment) => (child, identity ++ [segment])).reverse ++ pending)
      (into.set id identity)

def elementIdentities : Reading K (FiniteMap ℕ ElementIdentity) :=
  match g.root with
  | none => .ok ∅
  | some root =>
    let key := match g.node root with
      | some node => .of node 0 0
      | none => .positional 0 0
    identitiesBelow g g.climb [(root, [key])] ∅

/-- The closure `refresh`: a retained root that has an identity keeps it, with all that is below. -/
def refreshFrom (retained : List ℕ) : ℕ → List (ℕ × IdentitySegment × ElementIdentity) →
    FiniteMap ℕ ElementIdentity → Reading K (FiniteMap ℕ ElementIdentity)
  | _, [], identities => .ok identities
  | 0, _ :: _, _ => .error .diverges
  | fuel + 1, (id, own, parent) :: pending, identities =>
    if id ∈ retained ∧ (identities.get id).isSome then refreshFrom retained fuel pending identities
    else do
      let identity := extend parent own
      let children ← g.childSegments id
      refreshFrom retained fuel
        ((children.map fun (child, own) => (child, own, identity)).reverse ++ pending)
        (identities.set id identity)

def refresh (a : GraphApply K) (root : ℕ) (own : IdentitySegment) (parent : ElementIdentity)
    (identities : FiniteMap ℕ ElementIdentity) : Reading K (FiniteMap ℕ ElementIdentity) :=
  refreshFrom g a.retainedRoots g.climb [(root, own, parent)] identities

/-- A child that stays, with the key it had. -/
def settled (a : GraphApply K) (identities : FiniteMap ℕ ElementIdentity) (child : ℕ)
    (segment : IdentitySegment) : Prop :=
  child ∉ a.stagedIds ∧ (identities.get child).bind List.getLast? = some segment

instance (a : GraphApply K) (identities : FiniteMap ℕ ElementIdentity) (child : ℕ)
    (segment : IdentitySegment) : Decidable (settled a identities child segment) :=
  inferInstanceAs (Decidable (_ ∧ _))

/-- The loop over the children of the parent that the patch names. -/
def refreshChildren (a : GraphApply K) (parent : ElementIdentity) :
    List (ℕ × IdentitySegment) → FiniteMap ℕ ElementIdentity →
    Reading K (FiniteMap ℕ ElementIdentity)
  | [], identities => .ok identities
  | (child, segment) :: rest, identities => do
    let identities ← if settled a identities child segment then .ok identities
      else refresh g a child segment parent identities
    refreshChildren a parent rest identities

def forget (ids : List ℕ) (identities : FiniteMap ℕ ElementIdentity) : FiniteMap ℕ ElementIdentity :=
  ids.foldl FiniteMap.remove identities

/-- The parent under which siblings may have been renumbered, with its identity. -/
def parentIdentity (a : GraphApply K) (identities : FiniteMap ℕ ElementIdentity) :
    Option (ℕ × ElementIdentity) :=
  match a.retiredRoot, a.parent with
  | false, some (parent, _) => (identities.get parent).map fun identity => (parent, identity)
  | _, _ => none

def boundaryKey (a : GraphApply K) : Option (ℕ × IdentitySegment) :=
  match a.root with
  | none => none
  | some root =>
    match g.cachedSegment root with
    | some (.boundary instanceId) => some (root, .boundary instanceId)
    | _ => none

def refreshIdentities (a : GraphApply K) (identities : FiniteMap ℕ ElementIdentity) :
    Reading K (FiniteMap ℕ ElementIdentity) := do
  let identities := forget a.removedIds identities
  match parentIdentity a identities with
  | none =>
    match a.root.bind g.node with
    | some root => refresh g a root.id (.of root 0 0) [] identities
    | none => return identities
  | some (parent, identity) =>
    match boundaryKey g a with
    | some (root, segment) => refresh g a root segment identity identities
    | none => refreshChildren g a identity (← g.childSegments parent) identities

/-- What `apply_keyed_to_gpui` writes for the nodes a keyed patch mounted. -/
def enterStaged : List ℕ → FiniteMap ℕ ElementIdentity → Reading K (FiniteMap ℕ ElementIdentity)
  | [], identities => .ok identities
  | id :: rest, identities => do enterStaged rest (identities.set id (← g.identity id))

/-- What `apply_to_gpui` leaves of the identities, once the graph has taken the patch. -/
def applyToGpui (a : GraphApply K) (identities : FiniteMap ℕ ElementIdentity) :
    Reading K (FiniteMap ℕ ElementIdentity) :=
  if a.facts.kind = "no_change" then .ok identities
  else if a.facts.kind = "keyed" then enterStaged g a.stagedIds (forget a.removedIds identities)
  else refreshIdentities g a identities

end Updates

section Anchored

variable {g : MountedGraph K} {x y p : ℕ} {s s' : IdentitySegment} {path path' : ElementIdentity}

/-- The key of `c` among the children of `p`. -/
def KeyOf (g : MountedGraph K) (p c : ℕ) (s : IdentitySegment) : Prop :=
  (c, s) ∈ siblingSegments g.node ∅ 0 (((forest g).kids p).map Prod.fst)

/-- The keys from the nearest boundary, or from the root, down to a node. -/
inductive Anchored (g : MountedGraph K) : ℕ → ElementIdentity → Prop where
  | root {x : ℕ} {n : Node K} : g.root = some x → g.node x = some n →
      Anchored g x (extend [] (.of n 0 0))
  | under {p x : ℕ} {s : IdentitySegment} {path : ElementIdentity} : Anchored g p path →
      KeyOf g p x s → Anchored g x (extend path s)

theorem extend_boundary {i : ℕ} : extend path (.boundary i) = [.boundary i] := rfl

theorem extend_last : (extend path s).getLast? = some s := List.getLast?_concat

theorem key_child (hkey : KeyOf g p x s) : (forest g).Child p x := by
  obtain ⟨⟨c, l⟩, hkid, rfl⟩ := List.mem_map.mp (mem_children hkey)
  exact ⟨l, hkid⟩

theorem key_exists (h : Shape g) (hchild : (forest g).Child p x) : ∃ s, KeyOf g p x s := by
  obtain ⟨l, hkid⟩ := hchild
  obtain ⟨n, hn⟩ := node_exists (h.linked.placed hkid).1
  exact segment_exists g.node (List.mem_map_of_mem (f := Prod.fst) hkid) (by simp [hn]) ∅ 0

theorem keys_distinct (h : Shape g) :
    ((siblingSegments g.node ∅ 0 (((forest g).kids p).map Prod.fst)).map Prod.fst).Nodup :=
  (kids_nodup h.linked p).sublist (segments_sublist g.node ∅ 0)

theorem key_unique (h : Shape g) (hs : KeyOf g p x s) (hs' : KeyOf g p x s') : s = s' :=
  (Prod.mk.inj (List.inj_on_of_nodup_map (keys_distinct h) hs hs' rfl)).2

theorem root_no_child (h : Shape g) (hr : g.root = some x) (hchild : (forest g).Child p x) : False := by
  obtain ⟨l, hkid⟩ := hchild
  cases (h.linked.rooted x hr).2.symm.trans (h.linked.placed hkid).2

theorem anchored_unique (h : Shape g) (hx : Anchored g x path) (hx' : Anchored g x path') :
    path = path' := by
  induction hx generalizing path' with
  | root hr hn =>
    cases hx' with
    | root hr' hn' => rw [Option.some.inj (hn.symm.trans hn')]
    | under _ hkey => exact (root_no_child h hr (key_child hkey)).elim
  | under _ hkey ih =>
    cases hx' with
    | root hr' _ => exact (root_no_child h hr' (key_child hkey)).elim
    | under hp' hkey' =>
      obtain rfl := child_unique h.linked (key_child hkey) (key_child hkey')
      rw [ih hp', key_unique h hkey hkey']

theorem anchored_mounted (h : Shape g) (hx : Anchored g x path) : (forest g).Mounted x := by
  cases hx with
  | root hr hn => exact mounted_node hn
  | under _ hkey =>
    obtain ⟨l, hkid⟩ := key_child hkey
    exact (h.linked.placed hkid).1

theorem anchored_exists (h : Shape g) (hm : (forest g).Mounted x) : ∃ path, Anchored g x path := by
  obtain ⟨r, hr, hbelow⟩ := reached h.linked h.weighed (finite_mounted g) hm
  clear hm
  induction hbelow with
  | refl =>
    obtain ⟨n, hn⟩ := node_exists (h.linked.rooted r hr).1
    exact ⟨_, .root hr hn⟩
  | tail _ hchild ih =>
    obtain ⟨path, hpath⟩ := ih
    obtain ⟨s, hs⟩ := key_exists h hchild
    exact ⟨_, .under hpath hs⟩

def Right (g : MountedGraph K) (m : FiniteMap ℕ ElementIdentity) (x : ℕ) : Prop :=
  ∃ path, Anchored g x path ∧ m.get x = some path

end Anchored

section Walks

variable {g : MountedGraph K} {retained : List ℕ} {fuel : ℕ}
  {pending : List (ℕ × IdentitySegment × ElementIdentity)} {m m' m'' : FiniteMap ℕ ElementIdentity}

structure Refreshed (g : MountedGraph K) (tops : List ℕ) (m m' : FiniteMap ℕ ElementIdentity) :
    Prop where
  kept : ∀ y, Right g m y → Right g m' y
  apart : ∀ y, (∀ x ∈ tops, ¬(forest g).Below x y) → m'.get y = m.get y
  below : ∀ x ∈ tops, ∀ y, (forest g).Below x y → Right g m' y

theorem load_reverse (ids : List ℕ) : load g ids.reverse = load g ids :=
  ((List.reverse_perm ids).map (forest g).weight).sum_eq

theorem load_keys (x : ℕ) :
    load g ((siblingSegments g.node ∅ 0 (((forest g).kids x).map Prod.fst)).map Prod.fst) ≤
      (forest g).total ((forest g).kids x) := by
  rw [← load_kids]
  exact ((segments_sublist g.node ∅ 0).map (forest g).weight).sum_le_sum fun _ _ => Nat.zero_le _

def entriesBelow (g : MountedGraph K) (x : ℕ) (identity : ElementIdentity) :
    List (ℕ × IdentitySegment × ElementIdentity) :=
  ((siblingSegments g.node ∅ 0 (((forest g).kids x).map Prod.fst)).map
    fun (child, own) => (child, own, identity)).reverse

theorem mem_entries {t : ℕ × IdentitySegment × ElementIdentity} {x : ℕ} {identity : ElementIdentity} :
    t ∈ entriesBelow g x identity ↔ KeyOf g x t.1 t.2.1 ∧ t.2.2 = identity := by
  obtain ⟨child, own, parent⟩ := t
  rw [entriesBelow, List.mem_reverse, List.mem_map]
  constructor
  · rintro ⟨⟨_, _⟩, hkey, ⟨⟩⟩
    exact ⟨hkey, rfl⟩
  · rintro ⟨hkey, rfl⟩
    exact ⟨(child, own), hkey, rfl⟩

theorem load_entries (x : ℕ) (identity : ElementIdentity) :
    load g ((entriesBelow g x identity).map Prod.fst) ≤ (forest g).total ((forest g).kids x) := by
  rw [entriesBelow, List.map_reverse, load_reverse, List.map_map]
  exact load_keys x

theorem refresh_walk (h : Shape g)
    (kept : ∀ x ∈ retained, ∀ y, (forest g).Below x y → Right g m y)
    (anchored : ∀ t ∈ pending, Anchored g t.1 (extend t.2.2 t.2.1))
    (enough : load g (pending.map Prod.fst) ≤ fuel) :
    ∃ m', refreshFrom g retained fuel pending m = .ok m' ∧
      Refreshed g (pending.map Prod.fst) m m' := by
  induction fuel generalizing pending m with
  | zero =>
    cases pending with
    | nil => exact ⟨m, rfl, fun _ hy => hy, fun _ _ => rfl, nofun⟩
    | cons t pending =>
      have hm := anchored_mounted h (anchored t List.mem_cons_self)
      rw [List.map_cons, load_cons h hm] at enough
      omega
  | succ fuel ih =>
    cases pending with
    | nil => exact ⟨m, rfl, fun _ hy => hy, fun _ _ => rfl, nofun⟩
    | cons t pending =>
      obtain ⟨x, own, parent⟩ := t
      have hx : Anchored g x (extend parent own) := anchored _ List.mem_cons_self
      have hm := anchored_mounted h hx
      rw [List.map_cons, load_cons h hm] at enough
      have others (t) (ht : t ∈ pending) := anchored t (List.mem_cons_of_mem _ ht)
      rw [refreshFrom]
      split
      · rename_i hskip
        obtain ⟨m', hrun, done⟩ := ih kept others (by omega)
        refine ⟨m', hrun, done.kept, fun y hy => done.apart y fun z hz => hy z (.tail _ hz), ?_⟩
        intro z hz y hbelow
        rcases List.mem_cons.mp hz with rfl | hz
        · exact done.kept y (kept _ hskip.1 y hbelow)
        · exact done.below z hz y hbelow
      · have hchildren := child_segments_eq (ε := GraphError K) h hm
        have hself : Right g (m.set x (extend parent own)) x := ⟨_, hx, FiniteMap.get_set_self _ _ _⟩
        have hright (y : ℕ) (hy : Right g m y) : Right g (m.set x (extend parent own)) y := by
          by_cases hyx : y = x
          · exact hyx ▸ hself
          · obtain ⟨path, hpath, hget⟩ := hy
            exact ⟨path, hpath, (FiniteMap.get_set_ne _ _ hyx).trans hget⟩
        have hanchored : ∀ t ∈ entriesBelow g x (extend parent own) ++ pending,
            Anchored g t.1 (extend t.2.2 t.2.1) := by
          intro t ht
          rcases List.mem_append.mp ht with ht | ht
          · obtain ⟨hkey, hidentity⟩ := mem_entries.mp ht
            rw [hidentity]
            exact .under hx hkey
          · exact others t ht
        have hload : load g ((entriesBelow g x (extend parent own) ++ pending).map Prod.fst) ≤ fuel := by
          have hentries := load_entries (g := g) x (extend parent own)
          rw [List.map_append, load_append]
          omega
        obtain ⟨m', hrun, done⟩ := ih (fun z hz y hy => hright y (kept z hz y hy)) hanchored hload
        have hmem (z : ℕ) : z ∈ (entriesBelow g x (extend parent own) ++ pending).map Prod.fst ↔
            (forest g).Child x z ∨ z ∈ pending.map Prod.fst := by
          rw [List.map_append, List.mem_append]
          refine or_congr_left ⟨fun hz => ?_, fun hz => ?_⟩
          · obtain ⟨t, ht, rfl⟩ := List.mem_map.mp hz
            exact key_child (mem_entries.mp ht).1
          · obtain ⟨s, hs⟩ := key_exists h hz
            exact List.mem_map.mpr ⟨(z, s, _), mem_entries.mpr ⟨hs, rfl⟩, rfl⟩
        refine ⟨m', ?_, fun y hy => done.kept y (hright y hy), fun y hy => ?_, fun z hz y hbelow => ?_⟩
        · dsimp only
          rw [hchildren]
          exact hrun
        · have hyx : y ≠ x := fun hyx => hy x List.mem_cons_self (hyx ▸ .refl)
          rw [done.apart y fun z hz hzy => ?_, FiniteMap.get_set_ne _ _ hyx]
          rcases (hmem z).mp hz with hchild | hz
          · exact hy x List.mem_cons_self (.head hchild hzy)
          · exact hy z (.tail _ hz) hzy
        · rcases List.mem_cons.mp hz with rfl | hz
          · rcases Relation.ReflTransGen.cases_head hbelow with rfl | ⟨b, hchild, hby⟩
            · exact done.kept z hself
            · exact done.below b ((hmem b).mpr (.inl hchild)) y hby
          · exact done.below z ((hmem z).mpr (.inr hz)) y hbelow

end Walks

section Recomputing

variable {g : MountedGraph K} {fuel : ℕ} {pending : List (ℕ × IdentitySegment × ElementIdentity)}
  {m : FiniteMap ℕ ElementIdentity} {x : ℕ} {own : IdentitySegment}

/-- A key that says whether its node is a boundary. -/
def Telling (g : MountedGraph K) (x : ℕ) (own : IdentitySegment) : Prop :=
  ∀ i, (g.node x).map (·.kind) = some (.boundary i) ↔ own = .boundary i

omit [DecidableEq K] in
theorem telling_root {n : Node K} (hn : g.node x = some n) : Telling g x (.of n 0 0) := by
  intro i
  rw [hn, Option.map_some, Option.some.injEq, of_boundary_iff]

theorem telling_key {p : ℕ} (hkey : KeyOf g p x own) : Telling g x own := by
  intro i
  constructor
  · intro hkind
    obtain ⟨n, hn, hk⟩ := Option.map_eq_some_iff.mp hkind
    exact segment_boundary hn hk hkey
  · rintro rfl
    exact boundary_of_segment hkey

omit [DecidableEq K] in
theorem extend_telling (told : Telling g x own) (parent : ElementIdentity) :
    (match (g.node x).map (·.kind) with
      | some (.boundary instanceId) => [.boundary instanceId]
      | _ => parent ++ [own]) = extend parent own := by
  split
  · rename_i i hkind
    rw [(told i).mp hkind]
    rfl
  · rename_i hkind
    have plain (i : ℕ) : own ≠ .boundary i := fun hown => hkind i ((told i).mpr hown)
    cases own with
    | boundary i => exact absurd rfl (plain i)
    | named tag name occurrence => rfl
    | positional tag index => rfl

theorem below_refreshes (h : Shape g) (mounted : ∀ t ∈ pending, (forest g).Mounted t.1)
    (told : ∀ t ∈ pending, Telling g t.1 t.2.1) :
    identitiesBelow g fuel (pending.map fun (id, own, parent) => (id, parent ++ [own])) m =
      refreshFrom g [] fuel pending m := by
  induction fuel generalizing pending m with
  | zero =>
    cases pending with
    | nil => rfl
    | cons t pending => rfl
  | succ fuel ih =>
    cases pending with
    | nil => rfl
    | cons t pending =>
      obtain ⟨x, own, parent⟩ := t
      have hm : (forest g).Mounted x := mounted _ List.mem_cons_self
      have hchildren := child_segments_eq (ε := GraphError K) h hm
      have hidentity := extend_telling (told _ List.mem_cons_self) parent
      dsimp only at hidentity
      rw [List.map_cons, identitiesBelow, refreshFrom, if_neg (fun hskip => List.not_mem_nil hskip.1)]
      dsimp only
      rw [hidentity, hchildren]
      dsimp only [bind, Except.bind]
      have hrest := @ih (entriesBelow g x (extend parent own) ++ pending)
        (m.set x (extend parent own)) ?_ ?_
      · rw [List.map_append, entriesBelow, List.map_reverse, List.map_map] at hrest
        exact hrest
      · intro t ht
        rcases List.mem_append.mp ht with ht | ht
        · obtain ⟨l, hkid⟩ := key_child (mem_entries.mp ht).1
          exact (h.linked.placed hkid).1
        · exact mounted t (List.mem_cons_of_mem _ ht)
      · intro t ht
        rcases List.mem_append.mp ht with ht | ht
        · exact telling_key (mem_entries.mp ht).1
        · exact told t (List.mem_cons_of_mem _ ht)

/-- The identities of a graph: one for each mounted node, as it is anchored. -/
def Exact (g : MountedGraph K) (m : FiniteMap ℕ ElementIdentity) : Prop :=
  (∀ x, (forest g).Mounted x → Right g m x) ∧ ∀ x, ¬(forest g).Mounted x → m.get x = none

theorem exact_unique {m' : FiniteMap ℕ ElementIdentity} (h : Shape g) (exact : Exact g m)
    (exact' : Exact g m') : m = m' := by
  refine FiniteMap.ext fun x => ?_
  by_cases hm : (forest g).Mounted x
  · obtain ⟨path, hpath, hget⟩ := exact.1 x hm
    obtain ⟨path', hpath', hget'⟩ := exact'.1 x hm
    rw [hget, hget', anchored_unique h hpath hpath']
  · rw [exact.2 x hm, exact'.2 x hm]

theorem refresh_from_root (h : Shape g) {r : ℕ} {n : Node K} {retained : List ℕ} (hr : g.root = some r)
    (hn : g.node r = some n) (kept : ∀ x ∈ retained, ∀ y, (forest g).Below x y → Right g m y)
    (clean : ∀ x, ¬(forest g).Mounted x → m.get x = none) :
    ∃ m', refreshFrom g retained g.climb [(r, .of n 0 0, [])] m = .ok m' ∧ Exact g m' := by
  have hm := (h.linked.rooted r hr).1
  have hload : load g ([(r, IdentitySegment.of n 0 0, ([] : ElementIdentity))].map Prod.fst) ≤ g.climb := by
    rw [List.map_singleton, load, List.map_singleton, List.sum_singleton, MountedGraph.climb]
    exact (weight_le_size h hm).trans (Nat.le_succ _)
  have hanchored : ∀ t ∈ [(r, IdentitySegment.of n 0 0, ([] : ElementIdentity))],
      Anchored g t.1 (extend t.2.2 t.2.1) := by
    rintro t ht
    obtain rfl := List.mem_singleton.mp ht
    exact .root hr hn
  obtain ⟨m', hrun, done⟩ := refresh_walk h kept hanchored hload
  refine ⟨m', hrun, fun x hx => ?_, fun x hx => ?_⟩
  · obtain ⟨r', hr', hbelow⟩ := reached h.linked h.weighed (finite_mounted g) hx
    obtain rfl := Option.some.inj (hr.symm.trans hr')
    exact done.below r List.mem_cons_self x hbelow
  · rw [done.apart x fun y hy hbelow => ?_, clean x hx]
    obtain rfl := List.mem_singleton.mp hy
    exact hx (mounted_below h hm hbelow)

theorem identities_exact (h : Shape g) : ∃ m, elementIdentities g = .ok m ∧ Exact g m := by
  cases hr : g.root with
  | none =>
    refine ⟨∅, by rw [elementIdentities, hr], fun x hx => ?_, fun x _ => FiniteMap.get_empty x⟩
    obtain ⟨r, hr', -⟩ := reached h.linked h.weighed (finite_mounted g) hx
    cases hr.symm.trans hr'
  | some r =>
    have hm := (h.linked.rooted r hr).1
    obtain ⟨n, hn⟩ := node_exists hm
    obtain ⟨m, hrun, exact⟩ := @refresh_from_root K _ g ∅ h r n [] hr hn nofun
      fun x _ => FiniteMap.get_empty x
    refine ⟨m, ?_, exact⟩
    have mounted : ∀ t ∈ [(r, IdentitySegment.of n 0 0, ([] : ElementIdentity))],
        (forest g).Mounted t.1 := by
      intro t ht
      obtain rfl := List.mem_singleton.mp ht
      exact hm
    have told : ∀ t ∈ [(r, IdentitySegment.of n 0 0, ([] : ElementIdentity))], Telling g t.1 t.2.1 := by
      intro t ht
      obtain rfl := List.mem_singleton.mp ht
      exact telling_root hn
    rw [elementIdentities, hr, ← hrun]
    dsimp only
    rw [hn]
    exact below_refreshes h mounted told

end Recomputing

end RuntimeIdentities
