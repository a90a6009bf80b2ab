import RocGui.IdentityRuns

/-! Retirement is final, and a component that lives on keeps its structural scope. -/
namespace Retirements

open FiniteMaps KeyedLists Methods KeyedOrder GraphState FragmentValidation GraphPatches
open FragmentTrees GraphForests GraphMounting GraphGrafts GraphReplacements KeyedStaging
open KeyedTransactions GraphRuns GraphLedgers GraphListings KeyedListings SiblingSegments
open GraphIdentities KeyedIdentities ElementIdentities RuntimeIdentities IdentityRuns FocusLandings
open NodeForms PointerTrees Transitions

variable {K : Type} [DecidableEq K]

def Carries (g : MountedGraph K) (x : ℕ) : Prop :=
  ∃ y i, (forest g).Below x y ∧ kindAt g y = some (.boundary i)

def nodeAfter (g : MountedGraph K) (nodes : List (Node K)) (id : ℕ) : Option (Node K) :=
  (nodes.find? (·.id = id)).or (g.node id)

/-- The siblings of a replaced node keep their keys, but for those that carry no component. -/
def KeepsScopes (g : MountedGraph K) (oldRoot root : ℕ) (nodes : List (Node K)) : Prop :=
  ∀ p i, g.parentLocation oldRoot = some (.ordinaryIndex p i) → ∀ c s, KeyOf g p c s →
    c ≠ oldRoot → Carries g c → (c, s) ∈ siblingSegments (nodeAfter g nodes) ∅ 0
      ((((forest g).kids p).map Prod.fst).set i root)

def ScopesKept (g : MountedGraph K) : Patch K → Prop
  | .replace oldRoot root nodes => KeepsScopes g oldRoot root nodes
  | .replaceRetaining oldRoot root nodes _ => KeepsScopes g oldRoot root nodes
  | _ => True

/-- The runs in which an item keeps its instance and no component is renumbered. -/
def careful (K : Type) [DecidableEq K] : System (MountedGraph K) (Patch K) :=
  (accepting K).restrict fun g patch => InstallsItems g patch ∧ ScopesKept g patch

/-- A component keeps its node, or is rebuilt under a new one; either way its path is the same. -/
def SameScope (g v : MountedGraph K) (x x' : ℕ) : Prop :=
  (x' = x ∨ g.nodes.get x' = none ∧ v.nodes.get x = none) ∧
    ∃ path, g.identity x = (.ok path : Except (Failure Empty) _) ∧
      v.identity x' = (.ok path : Except (Failure Empty) _)

section Checks

variable {g : MountedGraph K} {frontier : Finset ℕ} {validated : ValidatedFragment K}
  {path top p : ElementIdentity} {x y c : ℕ}

/-- The nodes of a fragment below one, with the path each is checked at. -/
inductive Scoped (g : MountedGraph K) (frontier : Finset ℕ) (validated : ValidatedFragment K) :
    ℕ → ElementIdentity → ℕ → ElementIdentity → Prop where
  | here {x : ℕ} {path : ElementIdentity} : Scoped g frontier validated x path x path
  | under {x c y : ℕ} {path p : ElementIdentity} {s : IdentitySegment} {n : Node K} :
      x ∉ frontier → validated.fresh.get x = some n →
      (c, s) ∈ siblingSegments (validated.lookup g.node) ∅ 0 n.children →
      Scoped g frontier validated c (path ++ [s]) y p → Scoped g frontier validated x path y p

omit [DecidableEq K] in
theorem scoped_child {s : IdentitySegment} {n : Node K}
    (hy' : Scoped g frontier validated x path y p) (hy : y ∉ frontier)
    (hn : validated.fresh.get y = some n)
    (hc : (c, s) ∈ siblingSegments (validated.lookup g.node) ∅ 0 n.children) :
    Scoped g frontier validated x path c (p ++ [s]) := by
  induction hy' with
  | here => exact .under hy hn hc .here
  | under hx hm hmem _ ih => exact .under hx hm hmem (ih hy hn)

structure Checked (g : MountedGraph K) (frontier : Finset ℕ) (validated : ValidatedFragment K)
    (y : ℕ) (p : ElementIdentity) : Prop where
  retained : y ∈ frontier → PathTo g y p
  rebuilt : y ∉ frontier → ∀ n i old, validated.fresh.get y = some n → n.kind = .boundary i →
    g.boundaryInstances.get i = some old → PathTo g old p

def AllChecked (g : MountedGraph K) (frontier : Finset ℕ) (validated : ValidatedFragment K) (x : ℕ)
    (path : ElementIdentity) : Prop :=
  ∀ y p, Scoped g frontier validated x path y p → Checked g frontier validated y p

/-- What an accepted walk over the stack has checked; each exit takes one key off the path. -/
def Stacked (g : MountedGraph K) (frontier : Finset ℕ) (validated : ValidatedFragment K) :
    ElementIdentity → List (ℕ × IdentitySegment × Bool) → Prop
  | _, [] => True
  | path, (_, _, true) :: rest => Stacked g frontier validated path.dropLast rest
  | path, (id, s, false) :: rest => AllChecked g frontier validated id (path ++ [s]) ∧
      Stacked g frontier validated path rest

omit [DecidableEq K] in
theorem stacked_children {children : List (ℕ × IdentitySegment)}
    {rest : List (ℕ × IdentitySegment × Bool)}
    (stacked : Stacked g frontier validated path
      (children.map (fun (child, segment) => (child, segment, false)) ++ rest)) :
    (∀ c s, (c, s) ∈ children → AllChecked g frontier validated c (path ++ [s])) ∧
      Stacked g frontier validated path rest := by
  induction children with
  | nil => exact ⟨nofun, stacked⟩
  | cons child children ih =>
    obtain ⟨hfirst, hrest⟩ := ih stacked.2
    refine ⟨fun c s hc => ?_, hrest⟩
    rcases List.mem_cons.mp hc with heq | hc
    · obtain rfl := heq
      exact stacked.1
    · exact hfirst c s hc

omit [DecidableEq K] in
theorem retained_checked (hx : x ∈ frontier) (hpath : PathTo g x path) :
    AllChecked g frontier validated x path := by
  intro y p hy
  cases hy with
  | here => exact ⟨fun _ => hpath, fun hout => absurd hx hout⟩
  | under hout => exact absurd hx hout

omit [DecidableEq K] in
theorem staged_checked {n : Node K} (hx : x ∉ frontier) (hn : validated.fresh.get x = some n)
    (rebuilt : ∀ i old, n.kind = .boundary i → g.boundaryInstances.get i = some old →
      PathTo g old path)
    (children : ∀ c s, (c, s) ∈ siblingSegments (validated.lookup g.node) ∅ 0 n.children →
      AllChecked g frontier validated c (path ++ [s])) : AllChecked g frontier validated x path := by
  intro y p hy
  cases hy with
  | here =>
    refine ⟨fun hin => absurd hin hx, fun _ m i old hm hk hold => ?_⟩
    obtain rfl := Option.some.inj (hn.symm.trans hm)
    exact rebuilt i old hk hold
  | under _ hm hmem hbelow =>
    obtain rfl := Option.some.inj (hn.symm.trans hm)
    exact children _ _ hmem y p hbelow

omit [DecidableEq K] in
theorem scopes_checked {rootSegment : IdentitySegment} {fuel : ℕ}
    {pending : List (ℕ × IdentitySegment × Bool)}
    (h : checkScopes g frontier validated rootSegment fuel path pending = .ok ()) :
    Stacked g frontier validated path pending := by
  induction fuel generalizing path pending with
  | zero =>
    cases pending with
    | nil => trivial
    | cons => cases h
  | succ fuel ih =>
    match pending, h with
    | [], _ => trivial
    | (_, _, true) :: rest, h =>
      have hrest : Stacked g frontier validated path.dropLast rest := ih h
      exact hrest
    | (id, s, false) :: rest, h =>
      rw [checkScopes] at h
      by_cases hin : id ∈ frontier
      · rw [if_pos hin] at h
        obtain ⟨identity, hidentity, h⟩ := except_bind_ok.mp h
        rw [reject_guard_ok, not_not] at h
        obtain ⟨rfl, hrest⟩ := h
        exact ⟨retained_checked hin (path_of_identity hidentity), ih hrest⟩
      · rw [if_neg hin] at h
        cases hn : validated.fresh.get id with
        | none =>
          rw [hn] at h
          cases h
        | some n =>
          rw [hn] at h
          dsimp only at h
          have hparts : (∀ i old, n.kind = .boundary i → g.boundaryInstances.get i = some old →
              PathTo g old (path ++ [s])) ∧ (stagedSegments (validated.lookup g.node) n >>= fun children =>
                checkScopes g frontier validated rootSegment fuel (path ++ [s])
                  (children.map (fun (child, segment) => (child, segment, false)) ++
                    (id, rootSegment, true) :: rest)) = .ok () := by
            split at h
            · rename_i i hk
              split at h
              · rename_i old hold
                obtain ⟨identity, hidentity, h⟩ := except_bind_ok.mp h
                rw [reject_guard_ok, not_not] at h
                obtain ⟨rfl, h⟩ := h
                refine ⟨fun i' old' hk' hold' => ?_, h⟩
                cases hk.symm.trans hk'
                obtain rfl := Option.some.inj (hold.symm.trans hold')
                exact path_of_identity hidentity
              · rename_i hnone
                refine ⟨fun i' old' hk' hold' => ?_, h⟩
                cases hk.symm.trans hk'
                cases hnone.symm.trans hold'
            · rename_i hplain
              exact ⟨fun i' old' hk' => absurd hk' (hplain i'), h⟩
          obtain ⟨rebuilt, h⟩ := hparts
          obtain ⟨children, hchildren, h⟩ := except_bind_ok.mp h
          rw [stagedSegments] at hchildren
          split at hchildren
          · obtain rfl := Except.ok.inj hchildren
            obtain ⟨below, hrest⟩ := stacked_children (ih h)
            refine ⟨staged_checked hin hn rebuilt below, ?_⟩
            have hback : Stacked g frontier validated (path ++ [s]).dropLast rest := hrest
            rwa [List.dropLast_concat] at hback
          · cases hchildren

end Checks

section Paths

variable {g v : MountedGraph K} {removed : List ℕ} {nodes : List (Node K)} {frontier : Finset ℕ}
  {tops : List (ℕ × Option (ParentLocation K))} {site root : Option ℕ} {x : ℕ} {path : ElementIdentity}

theorem mounted_of_key {key : IdentitySegment} (hkey : g.cachedSegment x = some key) :
    (forest g).Mounted x := by
  rw [mounted_iff, ← Option.isSome_map (f := fun e => e.segment)]
  exact Option.isSome_of_eq_some hkey

theorem key_cached (h : Shape g) (s : Segmented g) {l : ParentLocation K}
    (hp : g.parentLocation x = some l) {key : IdentitySegment} :
    g.cachedSegment x = some key ↔ KeyOf g l.parent x key := by
  constructor
  · exact key_of_child h s hp
  · exact s.agrees _ _ _

theorem item_key (h : Shape g) (s : Segmented g) {l : ParentLocation K} {i : ℕ}
    (hp : g.parentLocation x = some l) (hkind : kindAt g x = some (.boundary i)) :
    g.cachedSegment x = some (.boundary i) := by
  have hchild : (forest g).Child l.parent x :=
    ⟨l, h.linked.listed (mounted_iff.mpr (mounted_of_parent hp)) hp⟩
  obtain ⟨key, hkey⟩ := key_exists h hchild
  obtain ⟨n, hn, hk⟩ := Option.map_eq_some_iff.mp hkind
  rw [(key_cached h s hp).mpr hkey, segment_boundary hn hk hkey]

variable (e : Grafted g v removed nodes frontier tops site root) (h : Shape g) (s : Segmented g)
  (s' : Segmented v)

include e h s s'

theorem key_stays {l : ParentLocation K} (hr : x ∉ removed) (hf : x ∉ frontier)
    (hp : g.parentLocation x = some l) (hs : site ≠ some l.parent) :
    v.cachedSegment x = g.cachedSegment x := by
  have hm := mounted_iff.mpr (mounted_of_parent hp)
  have hkept : l.parent ∉ removed := fun hgone => hf (e.graft.all_kept hm hr hp hgone)
  have hp' : v.parentLocation x = some l := (e.parent_kept h hm hr hf).trans hp
  have hchild : (forest v).Child l.parent x :=
    ⟨l, (e.shape h).linked.listed (mounted_iff.mpr (mounted_of_parent hp')) hp'⟩
  obtain ⟨key, hkey⟩ := key_exists (e.shape h) hchild
  obtain ⟨hold, -⟩ := key_kept e h (mounted_owner h.linked hm hp) hkept hs hkey
  rw [(key_cached (e.shape h) s' hp').mpr hkey, (key_cached h s hp).mpr hold]

theorem root_stays (hr : x ∉ removed) (hm : (forest g).Mounted x) (hp : g.parentLocation x = none)
    (hp' : v.parentLocation x = none) : v.cachedSegment x = g.cachedSegment x := by
  have hm' := (e.mounted h x).mpr (.inl ⟨hm, hr⟩)
  obtain ⟨n, hn⟩ := node_exists hm
  obtain ⟨n', hn'⟩ := node_exists hm'
  have hkind := e.kind_kept h hm hr
  rw [hn, hn', Option.map_some, Option.map_some, Option.some.injEq] at hkind
  rw [s.root x (h.linked.unparented hm hp) n hn,
    s'.root x ((e.shape h).linked.unparented hm' hp') n' hn', of_congr hkind]

theorem path_stays {Q : ℕ → Prop} (closed : ∀ x l, Q x → g.parentLocation x = some l → Q l.parent)
    (retained : ∀ x ∈ frontier, Q x → ∀ path, PathTo g x path → PathTo v x path)
    (siblings : ∀ x l, Q x → x ∉ removed → x ∉ frontier → g.parentLocation x = some l →
      site = some l.parent → v.cachedSegment x = g.cachedSegment x)
    (hx : PathTo g x path) (hr : x ∉ removed) (hq : Q x) : PathTo v x path := by
  induction hx with
  | @top x key hp hkey =>
    by_cases hf : x ∈ frontier
    · exact retained x hf hq _ (.top hp hkey)
    · have hm : (forest g).Mounted x := mounted_of_key hkey
      have hp' : v.parentLocation x = none := (e.parent_kept h hm hr hf).trans hp
      exact .top hp' ((root_stays e h s s' hr hm hp hp').trans hkey)
  | @under x key l path hp hpath hkey ih =>
    by_cases hf : x ∈ frontier
    · exact retained x hf hq _ (.under hp hpath hkey)
    · have hm : (forest g).Mounted x := mounted_iff.mpr (mounted_of_parent hp)
      have hkept : l.parent ∉ removed := fun hgone => hf (e.graft.all_kept hm hr hp hgone)
      have hsegment : v.cachedSegment x = g.cachedSegment x := by
        by_cases hs : site = some l.parent
        · exact siblings x l hq hr hf hp hs
        · exact key_stays e h s s' hr hf hp hs
      exact .under ((e.parent_kept h hm hr hf).trans hp) (ih hkept (closed x l hq hp))
        (hsegment.trans hkey)

theorem site_path {q : ℕ} (hq : site = some q) (away : ∀ y ∈ frontier, ¬(forest g).Below y q)
    (hx : PathTo g q path) : PathTo v q path := by
  refine path_stays e h s s' (Q := fun y => (forest g).Below y q) ?_ ?_ ?_ hx
    (e.graft.site_kept q hq).2 .refl
  · intro y l hbelow hp
    exact .head ⟨l, h.linked.listed (mounted_iff.mpr (mounted_of_parent hp)) hp⟩ hbelow
  · exact fun y hf hbelow => absurd hbelow (away y hf)
  · intro y l hbelow hr hf hp hs
    obtain rfl := Option.some.inj (hq.symm.trans hs)
    have hchild : (forest g).Child l.parent y :=
      ⟨l, h.linked.listed (mounted_iff.mpr (mounted_of_parent hp)) hp⟩
    exact absurd hbelow (no_way_back h hchild)

end Paths

section Replacing

variable {g v : MountedGraph K} {r : Replacement K} {plan : ReplacementPlan K} {a : GraphApply K}
  {x : ℕ} {path outer : ElementIdentity}

theorem frontier_apart (h : Shape g) (p : Planned r g plan) {q : ℕ} (hq : siteOf plan = some q) :
    ∀ y ∈ plan.frontier, ¬(forest g).Below y q := by
  intro y hy hbelow
  obtain ⟨location, hl, rfl⟩ := Option.map_eq_some_iff.mp hq
  obtain ⟨old, hold, hkid⟩ := old_kid h p hl
  obtain ⟨old', hold', hunder⟩ := under_old p (.inr hy)
  obtain rfl := Option.some.inj (hold.symm.trans hold')
  exact no_way_back h ⟨location, hkid⟩ (hunder.trans hbelow)

variable (h : Shape g) (p : Planned r g plan)
  (e : Grafted g v plan.removedIds r.nodes plan.frontier [(r.root, plan.parentLocation)]
    (siteOf plan) (rootAfter r plan g))

include h p e

theorem lookup_kind {n : Node K} (hn : n ∈ r.nodes) {c : ℕ} (hc : c ∈ n.children) :
    (v.node c).map (·.kind) = (plan.validated.lookup g.node c).map (·.kind) := by
  have hlisted := p.fragment.listed c (mem_childIds.mpr ⟨n, hn, hc⟩)
  have known : ∃ m, plan.validated.lookup g.node c = some m := by
    rw [ValidatedFragment.lookup]
    rcases hlisted with hid | hf
    · obtain ⟨m, hm, rfl⟩ := List.mem_map.mp hid
      exact ⟨m, by rw [p.fragment.fresh.mpr ⟨hm, rfl⟩, Option.some_or]⟩
    · obtain ⟨m, hm⟩ := node_exists (e.graft.kept c hf).1
      have hfresh : plan.validated.fresh.get c = none := by
        cases hget : plan.validated.fresh.get c with
        | none => rfl
        | some m' =>
          obtain ⟨hm', rfl⟩ := p.fragment.fresh.mp hget
          exact absurd hf (p.fragment.apart _ (List.mem_map_of_mem hm'))
      exact ⟨m, by rw [hfresh, Option.none_or, hm]⟩
  obtain ⟨m, hm⟩ := known
  rw [kind_of_lookup h p e hlisted hm, hm, Option.map_some]

/-- What is staged or retained was checked at the path it has now. -/
theorem staged_scoped (s : Segmented g) (s' : Segmented v)
    (marked : Marked g v plan.removedIds r.nodes [(r.root, plan.parentLocation)] (siteOf plan))
    (hroot : v.cachedSegment r.root = some plan.rootSegment)
    (hlocation : plan.parent = plan.parentLocation.map attachment)
    (houter : identityAt g plan.parent = .ok outer) (hx : PathTo v x path)
    (hc : x ∈ ids r.nodes ∨ x ∈ plan.frontier) :
    Scoped g plan.frontier plan.validated r.root (outer ++ [plan.rootSegment]) x path := by
  induction hx with
  | @top x key hp hkey =>
    rcases e.graft.placed x hc with hchild | htop
    · obtain ⟨n, hn, hmem⟩ := mem_childIds.mp hchild
      obtain ⟨l, hl, -⟩ := e.parent_fresh h hn hmem
      cases hp.symm.trans hl
    · obtain rfl : x = r.root := by simpa using htop
      have hnone : plan.parentLocation = none := (e.parent_top (by simp)).symm.trans hp
      rw [hlocation, hnone] at houter
      obtain rfl := Except.ok.inj houter
      obtain rfl := Option.some.inj (hroot.symm.trans hkey)
      exact .here
  | @under x key l path hp hpath hkey ih =>
    rcases e.graft.placed x hc with hchild | htop
    · obtain ⟨n, hn, hmem⟩ := mem_childIds.mp hchild
      obtain ⟨l', hl', hid⟩ := e.parent_fresh h hn hmem
      obtain rfl := Option.some.inj (hp.symm.trans hl')
      have hin : n.id ∈ ids r.nodes := List.mem_map_of_mem hn
      rw [hid] at ih
      obtain ⟨key', hkey'⟩ := segment_exists v.node hmem
        (Option.isSome_iff_exists.mpr (node_exists (mounted_of_key hkey))) ∅ 0
      obtain rfl := Option.some.inj (hkey.symm.trans (marked.fresh n hn x key' hkey'))
      rw [segments_congr fun c hc => lookup_kind h p e hn hc] at hkey'
      exact scoped_child (ih (.inl hin)) (p.fragment.apart _ hin) (p.fragment.fresh.mpr ⟨hn, rfl⟩) hkey'
    · obtain rfl : x = r.root := by simpa using htop
      have hl : plan.parentLocation = some l := (e.parent_top (by simp)).symm.trans hp
      have hsite : siteOf plan = some l.parent := by rw [siteOf, hl, Option.map_some]
      rw [hlocation, hl, Option.map_some] at houter
      have houter : g.identity (attachment l).1 = .ok outer := houter
      rw [attachment_parent] at houter
      have hnow := site_path e h s s' hsite (frontier_apart h p hsite) (path_of_identity houter)
      obtain rfl := path_unique hpath hnow
      obtain rfl := Option.some.inj (hroot.symm.trans hkey)
      exact .here

omit p in
theorem kind_after {c : ℕ} (hc : (forest v).Mounted c) :
    (nodeAfter g r.nodes c).map (·.kind) = (v.node c).map (·.kind) := by
  rw [nodeAfter]
  rcases (e.mounted h c).mp hc with ⟨hm, hr⟩ | hid
  · have hnone : r.nodes.find? (·.id = c) = none := List.find?_eq_none.mpr fun n hn heq =>
      fresh_not_mounted e h (of_decide_eq_true heq ▸ List.mem_map_of_mem hn) hm
    rw [hnone, Option.none_or, e.kind_kept h hm hr]
  · cases hfind : r.nodes.find? (·.id = c) with
    | none =>
      obtain ⟨n, hn, rfl⟩ := List.mem_map.mp hid
      exact absurd (decide_eq_true rfl) (List.find?_eq_none.mp hfind n hn)
    | some n =>
      have hid : n.id = c := by simpa using List.find?_some hfind
      rw [Option.some_or, ← hid, e.node_fresh h (List.mem_of_find?_eq_some hfind)]

theorem sibling_stays (bounded : Bounded g) (s : Segmented g) (s' : Segmented v)
    (hplan : planReplacement r g = .ok plan) (hrun : (applyReplacement r).run g = .ok a v)
    (keeps : ∀ old ∈ r.oldRoot, KeepsScopes g old r.root r.nodes) {l : ParentLocation K}
    (carries : Carries g x) (hr : x ∉ plan.removedIds) (hf : x ∉ plan.frontier)
    (hp : g.parentLocation x = some l) (hs : siteOf plan = some l.parent) :
    v.cachedSegment x = g.cachedSegment x := by
  have hm := mounted_iff.mpr (mounted_of_parent hp)
  have hp' : v.parentLocation x = some l := (e.parent_kept h hm hr hf).trans hp
  have hkid := h.linked.listed hm hp
  obtain ⟨key, hkey⟩ := key_exists h ⟨l, hkid⟩
  obtain ⟨location, hl, hparent⟩ := Option.map_eq_some_iff.mp hs
  obtain ⟨old, before, after, hold, around⟩ := hung h hplan hrun hl
  have hold_kid : (old, location) ∈ (forest g).kids location.parent := by
    rw [around.was]
    simp
  have hold_parent := (h.linked.placed hold_kid).2
  rw [(key_cached h s hp).mpr hkey]
  cases location with
  | ordinaryIndex q i =>
    have hq : q = l.parent := hparent
    have hne : x ≠ old := fun heq => hr (heq ▸ old_removed p hold)
    have hmem := keeps old hold q i hold_parent x key (hq ▸ hkey) hne carries
    have hset : ((((forest g).kids q).map Prod.fst).set i r.root) =
        ((forest v).kids q).map Prod.fst := by
      have hwas : (forest g).kids q = _ := around.was
      have hnow : (forest v).kids q = _ := around.now
      rw [hwas, hnow, List.map_append, List.map_append, List.map_cons, List.map_cons,
        around.index q i rfl, List.set_append_right _ _ (by simp)]
      simp
    rw [hset, @segments_congr _ v.node _ _ fun c hc => ?_] at hmem
    · exact s'.agrees q x key hmem
    · obtain ⟨⟨c, lc⟩, hkid_c, rfl⟩ := List.mem_map.mp hc
      exact kind_after h e ((e.shape h).linked.placed hkid_c).1
  | keyed container k i =>
    have hq : container = l.parent := hparent
    obtain ⟨k', j, rfl⟩ := keyed_beside h hold_kid (hq ▸ hkid)
    have hkind := bounded _ _ _ _ hp
    have hkind' : kindAt v x = some (.boundary j) := (e.kind_kept h hm hr).trans hkind
    rw [item_key (e.shape h) s' hp' hkind', ← (key_cached h s hp).mpr hkey, item_key h s hp hkind]

end Replacing

section Scopes

variable {g v : MountedGraph K} {x x' i : ℕ} {path : ElementIdentity}

theorem carries_parent (h : Shape g) {l : ParentLocation K} (carries : Carries g x)
    (hp : g.parentLocation x = some l) : Carries g l.parent := by
  obtain ⟨y, i, hbelow, hkind⟩ := carries
  have hkid := h.linked.listed (mounted_iff.mpr (mounted_of_parent hp)) hp
  exact ⟨y, i, .head ⟨l, hkid⟩ hbelow, hkind⟩

theorem same_scope (h : Shape g) (h' : Shape v) (hx : PathTo g x path) (hx' : PathTo v x' path)
    (hm : (forest g).Mounted x) (hm' : (forest v).Mounted x')
    (kept : x' = x ∨ ¬(forest g).Mounted x' ∧ ¬(forest v).Mounted x) : SameScope g v x x' := by
  refine ⟨kept.imp_right fun ⟨hnew, hgone⟩ => ⟨?_, ?_⟩, path, (identity_iff h hm).mpr hx,
    (identity_iff h' hm').mpr hx'⟩
  · rwa [mounted_iff, Option.not_isSome_iff_eq_none] at hnew
  · rwa [mounted_iff, Option.not_isSome_iff_eq_none] at hgone

theorem replacement_scopes {r : Replacement K} {a : GraphApply K} (h : Shape g) (bounded : Bounded g)
    (bounded' : Bounded v) (s : Segmented g) (s' : Segmented v) (exact : ExactIndices g)
    (exact' : ExactIndices v) (keeps : ∀ old ∈ r.oldRoot, KeepsScopes g old r.root r.nodes)
    (hrun : (applyReplacement r).run g = .ok a v) (hx : g.boundaryInstances.get i = some x)
    (hx' : v.boundaryInstances.get i = some x') : SameScope g v x x' := by
  obtain ⟨plan, hplan, e⟩ := replacement_grafted h hrun
  have p := planned h hplan
  have h' := e.shape h
  obtain ⟨marked, hroot⟩ := replacement_marked h bounded bounded' s hplan hrun
  obtain ⟨outer, n, houter, hlocation, -, -, hscopes, -⟩ := plan_scopes hplan
  have checked := (scopes_checked hscopes).1
  have hkind := (exact.boundaries i x).mp hx
  have hkind' := (exact'.boundaries i x').mp hx'
  have hm := mounted_of_kind hkind
  have hm' := mounted_of_kind hkind'
  obtain ⟨path, hpath, -⟩ := path_exists h hm
  obtain ⟨path', hpath', -⟩ := path_exists h' hm'
  have scopes {y : ℕ} {q : ElementIdentity} (hy : PathTo v y q)
      (hc : y ∈ ids r.nodes ∨ y ∈ plan.frontier) := checked y q
    (staged_scoped h p e s s' marked hroot hlocation houter hy hc)
  rcases (e.mounted h x').mp hm' with ⟨hm_x, hr⟩ | hid
  · have hsame := (e.kind_kept h hm_x hr).symm.trans hkind'
    obtain rfl := Option.some.inj (hx.symm.trans ((exact.boundaries i x').mpr hsame))
    have hnow : PathTo v x path := by
      refine path_stays e h s s' (Q := Carries g) (fun y l hq hp => carries_parent h hq hp) ?_ ?_ hpath
        hr ⟨x, i, .refl, hkind⟩
      · intro y hf _ q hq
        obtain ⟨q', hq', -⟩ := path_exists h' ((e.mounted h y).mpr
          (.inl ⟨(e.graft.kept y hf).1, (e.graft.kept y hf).2.1⟩))
        rwa [path_unique hq ((scopes hq' (.inr hf)).retained hf)]
      · exact fun y l hq hr hf hp hs => sibling_stays h p e bounded s s' hplan hrun keeps hq hr hf hp hs
    exact same_scope h h' hpath hnow hm hm' (.inl rfl)
  · obtain ⟨m, hmem, rfl⟩ := List.mem_map.mp hid
    have hk : m.kind = .boundary i := by
      rw [kindAt, e.node_fresh h hmem] at hkind'
      exact Option.some.inj hkind'
    have hold := (scopes hpath' (.inl hid)).rebuilt (p.fragment.apart _ hid) m i x
      (p.fragment.fresh.mpr ⟨hmem, rfl⟩) hk hx
    obtain ⟨-, outer', -, -, -, hstaged⟩ := plan_checks hplan
    have hgone : x ∈ plan.removedIds :=
      List.mem_toFinset.mp ((staged_boundary (check_staged_facts hstaged m hmem) hk).1 x hx)
    refine same_scope h h' hold hpath' hm hm' (.inr ⟨fresh_not_mounted e h hid, fun hm_v => ?_⟩)
    rcases (e.mounted h x).mp hm_v with ⟨-, hr⟩ | hid_x
    · exact hr hgone
    · exact fresh_not_mounted e h hid_x hm

theorem keyed_scopes {hashOrder : Enumeration K (Option (KeyedChild K))} {a : KeyedGraphApply K}
    {container baseRevision newRevision : ℕ} {operations : List (KeyedGraphOperation K)}
    (h : Shape g) (bounded : Bounded g) (s : Segmented g) (s' : Segmented v) (idx : Indexed g)
    (exact' : ExactIndices v)
    (hrun : (applyKeyed hashOrder container baseRevision newRevision operations).run g = .ok a v)
    (hx : g.boundaryInstances.get i = some x) (hx' : v.boundaryInstances.get i = some x') :
    SameScope g v x x' := by
  obtain ⟨entry, outer, prepared, j, hentry, -, -, hprepare, hcommit⟩ := apply_keyed_ok hrun
  obtain ⟨l₀, l, p, e⟩ := commit_grafted h hentry hprepare hcommit
  obtain ⟨he, l₁, -, hlocations⟩ := keyed_base h hentry
  have h' := e.shape h
  have exact := exact_indices idx
  have hkind := (exact.boundaries i x).mp hx
  have hkind' := (exact'.boundaries i x').mp hx'
  have hm := mounted_of_kind hkind
  have hm' := mounted_of_kind hkind'
  obtain ⟨path, hpath, -⟩ := path_exists h hm
  rcases (e.mounted h x').mp hm' with ⟨hm_x, hr⟩ | hid
  · have hsame := (e.kind_kept h hm_x hr).symm.trans hkind'
    obtain rfl := Option.some.inj (hx.symm.trans ((exact.boundaries i x').mpr hsame))
    refine same_scope h h' hpath ?_ hm hm' (.inl rfl)
    refine path_stays e h s s' (Q := fun _ => True) (fun _ _ _ _ => trivial)
      (fun y hf => absurd hf (Finset.notMem_empty y)) ?_ hpath hr trivial
    intro y ly _ hr hf hp hs
    -- every child of the container is an item
    have hcontainer : container = ly.parent := Option.some.inj hs
    have hm_y := mounted_iff.mpr (mounted_of_parent hp)
    have hkid := h.linked.listed hm_y hp
    rw [← hcontainer, kids_eq he, hlocations] at hkid
    obtain ⟨⟨k, r, j'⟩, -, heq⟩ := List.mem_map.mp hkid
    obtain rfl := (Prod.mk.inj heq).2
    have hkind_y := bounded _ _ _ _ hp
    rw [item_key h s hp hkind_y, item_key h' s' ((e.parent_kept h hm_y hr hf).trans hp)
      ((e.kind_kept h hm_y hr).trans hkind_y)]
  · obtain ⟨n, hn, rfl⟩ := List.mem_map.mp hid
    obtain ⟨f, hf, hmem⟩ := List.mem_flatMap.mp hn
    have hk : n.kind = .boundary i := by
      rw [kindAt, e.node_fresh h hn] at hkind'
      exact Option.some.inj hkind'
    obtain ⟨⟨owner, ledgers, -⟩, -⟩ := idx
    obtain ⟨newest, hnewest, hle⟩ := ledgers.newest hkind
    rcases p.newer f hf n hmem i hk with hnew | ⟨hroot, r, hget⟩
    · exact absurd (hnew newest hnewest) hle.not_gt
    have hp := p.listed hget
    obtain rfl := Option.some.inj (hx.symm.trans ((exact.boundaries i r).mpr (bounded _ _ _ _ hp)))
    obtain ⟨i', -, hplace⟩ := placeOf_eq p newRevision hf
    have hp' : v.parentLocation n.id = some (.keyed container f.key i') := by
      rw [hroot]
      exact e.parent_top (List.mem_map.mpr ⟨f, hf, hplace⟩)
    obtain ⟨q, hq, -⟩ := path_exists h (mounted_owner h.linked hm hp)
    have hq' := site_path e h s s' rfl (fun y hf => absurd hf (Finset.notMem_empty y)) hq
    refine same_scope h h' (.under hp hq (item_key h s hp hkind))
      (.under hp' hq' (item_key h' s' hp' hkind')) hm hm'
      (.inr ⟨fresh_not_mounted e h hid, fun hm_v => ?_⟩)
    rcases (e.mounted h x).mp hm_v with ⟨-, hr⟩ | hid_x
    · have hstill := (exact'.boundaries i x).mpr ((e.kind_kept h hm hr).trans hkind)
      exact fresh_not_mounted e h hid (Option.some.inj (hx'.symm.trans hstill) ▸ hm)
    · exact fresh_not_mounted e h hid_x hm

end Scopes

section Runs

variable {g v w : MountedGraph K} {patch : Patch K} {x x' i : ℕ}

structure Sound (g : MountedGraph K) : Prop where
  shape : Shape g
  indexed : Indexed g
  bounded : Bounded g
  segmented : Segmented g

theorem sound_step (sound : Sound g) (step : (careful K).Step g patch v) : Sound v := by
  obtain ⟨⟨installs, -⟩, step⟩ := step
  refine ⟨step_shape sound.shape step, ?_, step_bounded sound.shape sound.bounded installs step,
    step_segmented sound.shape sound.bounded sound.segmented installs step⟩
  obtain ⟨hashOrder, a, hrun⟩ := step
  exact (step_turnover sound.shape sound.indexed hrun).1

theorem sound_reachable (h : Reachable (careful K) g) : Sound g := by
  have installing : Reachable ((accepting K).restrict InstallsItems) g :=
    reachable_invariant (S := careful K) (P := Reachable ((accepting K).restrict InstallsItems))
      (reachable_initial _) (fun _ _ _ hs step => reachable_step (S := (accepting K).restrict InstallsItems) hs
        ⟨step.1.1, step.2⟩) h
  obtain ⟨shape, bounded, segmented⟩ := segmented_reachable installing
  exact ⟨shape, (indexed_reachable (reachable_of_restrict h)).2, bounded, segmented⟩

theorem step_scopes (sound : Sound g) (step : (careful K).Step g patch v)
    (hx : g.boundaryInstances.get i = some x) (hx' : v.boundaryInstances.get i = some x') :
    SameScope g v x x' := by
  have sound' := sound_step sound step
  obtain ⟨⟨-, keeps⟩, hashOrder, a, hrun⟩ := step
  have exact := exact_indices sound.indexed
  have exact' := exact_indices sound'.indexed
  have replaced {r : Replacement K} (keeps : ∀ old ∈ r.oldRoot, KeepsScopes g old r.root r.nodes)
      (hrun : (applyReplacement r).run g = .ok a v) : SameScope g v x x' :=
    replacement_scopes sound.shape sound.bounded sound'.bounded sound.segmented sound'.segmented
      exact exact' keeps hrun hx hx'
  cases patch with
  | mount root nodes => exact replaced (by simp) hrun
  | noChange =>
    obtain rfl := noChange_run hrun
    obtain rfl := Option.some.inj (hx.symm.trans hx')
    have hm := mounted_of_kind ((exact.boundaries i x).mp hx)
    obtain ⟨path, hpath, -⟩ := path_exists sound.shape hm
    exact same_scope sound.shape sound.shape hpath hpath hm hm (.inl rfl)
  | replace oldRoot root nodes =>
    exact replaced (fun old hold => Option.some.inj hold ▸ keeps) hrun
  | replaceRetaining oldRoot root nodes retainedRoots =>
    exact replaced (fun old hold => Option.some.inj hold ▸ keeps) hrun
  | keyed container baseRevision newRevision operations =>
    obtain ⟨keyed, hkeyed⟩ := apply_keyed_run hrun
    exact keyed_scopes sound.shape sound.bounded sound.segmented sound'.segmented sound.indexed exact'
      hkeyed hx hx'

/-- A patch grafts nodes that mount new instances, and rebuild mounted ones. -/
theorem step_grafted (h : Shape g) (step : (accepting K).Step g patch v) :
    v = g ∨ ∃ removed nodes frontier tops site root,
      Grafted g v removed nodes frontier tops site root ∧
        (Indexed g → Bounded g → ∀ n ∈ nodes, ∀ i, n.kind = .boundary i →
          Newer g i ∨ ∃ x, g.boundaryInstances.get i = some x) := by
  obtain ⟨hashOrder, a, hrun⟩ := step
  have replaced {r : Replacement K} (hrun : (applyReplacement r).run g = .ok a v) :
      v = g ∨ ∃ removed nodes frontier tops site root,
        Grafted g v removed nodes frontier tops site root ∧
          (Indexed g → Bounded g → ∀ n ∈ nodes, ∀ i, n.kind = .boundary i →
            Newer g i ∨ ∃ x, g.boundaryInstances.get i = some x) := by
    obtain ⟨plan, hplan, e⟩ := replacement_grafted h hrun
    obtain ⟨-, outer, -, -, -, hstaged⟩ := plan_checks hplan
    refine .inr ⟨_, _, _, _, _, _, e, fun _ _ n hn i hk => ?_⟩
    have hfacts := (staged_boundary (check_staged_facts hstaged n hn) hk).2
    cases hget : g.boundaryInstances.get i with
    | none => exact .inl (hfacts hget)
    | some x => exact .inr ⟨x, rfl⟩
  cases patch with
  | mount root nodes => exact replaced hrun
  | noChange => exact .inl (noChange_run hrun)
  | replace oldRoot root nodes => exact replaced hrun
  | replaceRetaining oldRoot root nodes retainedRoots => exact replaced hrun
  | keyed container baseRevision newRevision operations =>
    obtain ⟨keyed, hkeyed⟩ := apply_keyed_run hrun
    obtain ⟨l₀, l, prepared, j, p, e⟩ := keyed_grafted h hkeyed
    refine .inr ⟨_, _, _, _, _, _, e, fun indexed bounded n hn i hk => ?_⟩
    obtain ⟨f, hf, hmem⟩ := List.mem_flatMap.mp hn
    rcases p.newer f hf n hmem i hk with hnew | ⟨-, r, hget⟩
    · exact .inl hnew
    · -- a rebuilt item has the instance of the item that is mounted
      have hkind := bounded _ _ _ _ (p.listed hget)
      exact .inr ⟨r, ((exact_indices indexed).boundaries i r).mpr hkind⟩

theorem issued_nodes (h : Shape g) (step : (accepting K).Step g patch v) :
    g.maxSeenNodeId ≤ v.maxSeenNodeId := by
  rcases step_grafted h step with rfl | ⟨removed, nodes, frontier, tops, site, root, e, -⟩
  · exact le_rfl
  obtain ⟨t, t', s, st, -, -, issued⟩ := e.edit
  rw [issued, st.issued]
  exact s.issued.1

theorem issued_instances (sound : Sound g) (step : (accepting K).Step g patch v) :
    ∀ newest ∈ g.maxSeenInstance, ∃ newest' ∈ v.maxSeenInstance, newest ≤ newest' := by
  obtain ⟨hashOrder, a, hrun⟩ := step
  obtain ⟨-, nodes, turnover⟩ := step_turnover sound.shape sound.indexed hrun
  exact turnover.newest

/-- A node id that was issued and is not mounted. -/
def SpentNode (id : ℕ) (g : MountedGraph K) : Prop :=
  id ≤ g.maxSeenNodeId ∧ g.nodes.get id = none

def SpentInstance (i : ℕ) (g : MountedGraph K) : Prop :=
  (∃ newest ∈ g.maxSeenInstance, i ≤ newest) ∧ g.boundaryInstances.get i = none

theorem spent_node (h : Shape g) {id : ℕ} (spent : SpentNode id g)
    (step : (accepting K).Step g patch v) : SpentNode id v := by
  refine ⟨spent.1.trans (issued_nodes h step), ?_⟩
  rcases step_grafted h step with rfl | ⟨removed, nodes, frontier, tops, site, root, e, -⟩
  · exact spent.2
  by_contra hget
  rcases (e.mounted h id).mp (mounted_iff.mpr (Option.isSome_iff_ne_none.mpr hget)) with
    ⟨hm, -⟩ | hid
  · rw [mounted_iff, spent.2] at hm
    cases hm
  · exact absurd spent.1 (e.graft.fresh id hid).not_ge

theorem spent_instance (sound : Sound g) (spent : SpentInstance i g)
    (step : (careful K).Step g patch v) : SpentInstance i v := by
  have sound' := sound_step sound step
  obtain ⟨-, step⟩ := step
  obtain ⟨newest, hnewest, hle⟩ := spent.1
  refine ⟨?_, ?_⟩
  · obtain ⟨newest', hnewest', hmore⟩ := issued_instances sound step newest hnewest
    exact ⟨newest', hnewest', hle.trans hmore⟩
  · cases hget : v.boundaryInstances.get i with
    | none => rfl
    | some x =>
      have hkind := ((exact_indices sound'.indexed).boundaries i x).mp hget
      have unmounted (y : ℕ) : kindAt g y ≠ some (.boundary i) := fun hy => by
        have := ((exact_indices sound.indexed).boundaries i y).mpr hy
        cases spent.2.symm.trans this
      rcases step_grafted sound.shape step with rfl | ⟨removed, nodes, frontier, tops, site, root, e, staged⟩
      · exact absurd hkind (unmounted x)
      rcases (grafted_turned e sound.shape).cases hkind with ⟨-, hold⟩ | ⟨n, hn, -, hk⟩
      · exact absurd hold (unmounted x)
      · rcases staged sound.indexed sound.bounded n hn i hk with hnew | ⟨y, hy⟩
        · exact absurd (hnew newest hnewest) hle.not_gt
        · cases spent.2.symm.trans hy

omit [DecidableEq K] in
theorem single_step {S : System (MountedGraph K) (Patch K)} (step : S.Step g patch v) :
    Execution S g [patch] v := .tail (.refl g) step

theorem shape_run {P : MountedGraph K → Prop}
    (preserved : ∀ s patch t, Shape s → P s → (accepting K).Step s patch t → P t)
    {es : List (Patch K)} (run : Execution (accepting K) g es v) (h : Shape g) (hg : P g) :
    Shape v ∧ P v :=
  execution_invariant (P := fun s => Shape s ∧ P s)
    (fun s patch t hs step => ⟨step_shape hs.1 step, preserved s patch t hs.1 hs.2 step⟩) run ⟨h, hg⟩

theorem sound_run {P : MountedGraph K → Prop}
    (preserved : ∀ s patch t, Sound s → P s → (careful K).Step s patch t → P t)
    {es : List (Patch K)} (run : Execution (careful K) g es v) (sound : Sound g) (hg : P g) :
    Sound v ∧ P v :=
  execution_invariant (P := fun s => Sound s ∧ P s)
    (fun s patch t hs step => ⟨sound_step hs.1 step, preserved s patch t hs.1 hs.2 step⟩) run
    ⟨sound, hg⟩

theorem node_final {es es' : List (Patch K)} (h : Shape g) (run : Execution (accepting K) g es v)
    (run' : Execution (accepting K) v es' w) {id : ℕ} (hid : (g.nodes.get id).isSome)
    (hgone : v.nodes.get id = none) : w.nodes.get id = none := by
  obtain ⟨h', issued⟩ := shape_run (P := fun s => id ≤ s.maxSeenNodeId)
    (fun s patch t hs hle step => hle.trans (issued_nodes hs step)) run h (h.issued hid)
  exact (shape_run (P := SpentNode id) (fun s patch t hs => spent_node hs) run' h' ⟨issued, hgone⟩).2.2

theorem instance_final {es es' : List (Patch K)} (sound : Sound g)
    (run : Execution (careful K) g es v) (run' : Execution (careful K) v es' w)
    (hi : (g.boundaryInstances.get i).isSome) (hgone : v.boundaryInstances.get i = none) :
    w.boundaryInstances.get i = none := by
  obtain ⟨x, hx⟩ := Option.isSome_iff_exists.mp hi
  obtain ⟨owner, ledgers, -⟩ := sound.indexed.listed
  have seen : ∃ newest ∈ g.maxSeenInstance, i ≤ newest :=
    ledgers.newest (((exact_indices sound.indexed).boundaries i x).mp hx)
  obtain ⟨sound', issued⟩ := sound_run (P := fun s => ∃ newest ∈ s.maxSeenInstance, i ≤ newest)
    (fun s patch t hs ⟨newest, hnewest, hle⟩ step => by
      obtain ⟨newest', hnewest', hmore⟩ := issued_instances hs step.2 newest hnewest
      exact ⟨newest', hnewest', hle.trans hmore⟩) run sound seen
  exact (sound_run (P := SpentInstance i) (fun s patch t hs => spent_instance hs) run' sound'
    ⟨issued, hgone⟩).2.2

/-- A node that is no longer mounted never comes back, whatever patches follow. In runs of careful
patches no component does, and one that lives through a patch keeps its structural scope. -/
theorem retirement_final :
    (∀ (g v w : MountedGraph K) (es es' : List (Patch K)), Reachable (accepting K) g →
      Execution (accepting K) g es v → Execution (accepting K) v es' w →
      ∀ id, (g.nodes.get id).isSome → v.nodes.get id = none → w.nodes.get id = none) ∧
    ∀ (g v w : MountedGraph K) (es es' : List (Patch K)), Reachable (careful K) g →
      Execution (careful K) g es v → Execution (careful K) v es' w →
      (∀ i, (g.boundaryInstances.get i).isSome → v.boundaryInstances.get i = none →
        w.boundaryInstances.get i = none) ∧
      ∀ patch u, (careful K).Step w patch u → ∀ i x x', w.boundaryInstances.get i = some x →
        u.boundaryInstances.get i = some x' → SameScope w u x x' := by
  refine ⟨fun g v w es es' reached run run' id hid hgone =>
    node_final (shape_reachable reached) run run' hid hgone, fun g v w es es' reached run run' => ?_⟩
  have sound := sound_reachable reached
  have sound' : Sound w := execution_invariant (fun _ _ _ => sound_step) run'
    (execution_invariant (fun _ _ _ => sound_step) run sound)
  refine ⟨fun i hi hgone => instance_final sound run run' hi hgone, fun patch u step i x x' hx hx' => ?_⟩
  exact step_scopes sound' step hx hx'

end Runs

section Items

def itemGoes : Patch ℕ := .keyed 1 0 1 [.remove 7]

def itemComes : Patch ℕ := .keyed 1 1 2 [.insert 7 none 4 [⟨4, .boundary 6, [5]⟩, ⟨5, .text, []⟩]]

def itemRebuilt : Patch ℕ := .replace 4 6 [⟨6, .boundary 6, [7]⟩, ⟨7, .text, []⟩]

def withoutItem : MountedGraph ℕ := afterPatch (afterPatch .empty oneItemColumn) itemGoes

def withNewItem : MountedGraph ℕ := afterPatch withoutItem itemComes

def instanceAgain : Patch ℕ := .keyed 1 0 1 [.set 7 6 [⟨6, .boundary 5, [7]⟩, ⟨7, .text, []⟩]]

def textItem : MountedGraph ℕ := afterPatch (afterPatch .empty oneItemColumn) textForItem

theorem careful_rebuild :
    (careful ℕ).Step withNewItem itemRebuilt (afterPatch withNewItem itemRebuilt) := by
  have hold : withNewItem.parentLocation 4 = some (.keyed 1 7 6) := by decide +kernel
  refine ⟨⟨fun container key i hparent => ?_, fun p i hparent => ?_⟩, accepted_step _ (by decide +kernel)⟩
  · cases hold.symm.trans hparent
    exact ⟨⟨6, .boundary 6, [7]⟩, .inl (by simp), rfl, rfl⟩
  · cases hold.symm.trans hparent

theorem text_for_item : Reachable (accepting ℕ) (afterPatch .empty oneItemColumn) ∧
    Execution (accepting ℕ) (afterPatch .empty oneItemColumn) [textForItem] textItem ∧
    Execution (accepting ℕ) textItem [instanceAgain] (afterPatch textItem instanceAgain) :=
  ⟨reachable_step (reachable_initial (accepting ℕ)) (accepted_step oneItemColumn (by decide +kernel)),
    single_step (accepted_step _ (by decide +kernel)), single_step (accepted_step _ (by decide +kernel))⟩

theorem item_gone_for_good : (afterPatch textItem instanceAgain).nodes.get 2 = none ∧
    withNewItem.boundaryInstances.get 5 = none ∧
    SameScope withNewItem (afterPatch withNewItem itemRebuilt) 4 6 := by
  have mounted : Reachable (careful ℕ) (afterPatch .empty oneItemColumn) :=
    reachable_step (e := oneItemColumn) (reachable_initial (careful ℕ))
      ⟨⟨trivial, trivial⟩, accepted_step _ (by decide +kernel)⟩
  have goes : Execution (careful ℕ) (afterPatch .empty oneItemColumn) [itemGoes] withoutItem :=
    single_step ⟨⟨trivial, trivial⟩, accepted_step _ (by decide +kernel)⟩
  have comes : Execution (careful ℕ) withoutItem [itemComes] withNewItem :=
    single_step ⟨⟨trivial, trivial⟩, accepted_step _ (by decide +kernel)⟩
  obtain ⟨nodes, components⟩ := retirement_final (K := ℕ)
  obtain ⟨reached, replaced, again⟩ := text_for_item
  have gone := nodes _ _ _ _ _ reached replaced again 2 (by decide +kernel) (by decide +kernel)
  obtain ⟨instances, scopes⟩ := components _ _ _ _ _ mounted goes comes
  exact ⟨gone, instances 5 (by decide +kernel) (by decide +kernel),
    scopes _ _ careful_rebuild 6 4 6 (by decide +kernel) (by decide +kernel)⟩

theorem instance_comes_back : ¬∀ g v w : MountedGraph ℕ, Reachable (accepting ℕ) g → ∀ es es',
    Execution (accepting ℕ) g es v → Execution (accepting ℕ) v es' w → ∀ i,
    (g.boundaryInstances.get i).isSome → v.boundaryInstances.get i = none →
      w.boundaryInstances.get i = none := by
  intro claim
  obtain ⟨reached, replaced, again⟩ := text_for_item
  have hgone := claim _ _ _ reached _ _ replaced again 5 (by decide +kernel) (by decide +kernel)
  have hback : (afterPatch textItem instanceAgain).boundaryInstances.get 5 = some 6 := by decide +kernel
  cases hgone.symm.trans hback

end Items

end Retirements
