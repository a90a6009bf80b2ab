import RocGui.IdentityPaths
import RocGui.Retirements
import RocGui.VirtualRows

/-! The nodes whose views are built with one node: those below it, down to the next virtual lists.
What a patch leaves of them. -/
namespace VirtualSpans

open FiniteMaps Methods KeyedOrder GraphState GraphPatches FragmentTrees GraphForests GraphMounting
open GraphGrafts GraphReplacements SiblingSegments GraphIdentities ElementIdentities IdentityPaths
open IdentityRuns Retirements FocusLandings PointerTrees Popovers VirtualRows

variable {K : Type} [DecidableEq K]

/-- The children whose views are built with a node. -/
def cutKids (g : MountedGraph K) (x : ℕ) : List ℕ :=
  if isList g x then [] else ((forest g).kids x).map Prod.fst

def Cut (g : MountedGraph K) (a b : ℕ) : Prop := b ∈ cutKids g a

def Spans (g : MountedGraph K) : ℕ → ℕ → Prop := Relation.ReflTransGen (Cut g)

/-- How many views are built with a node, its own included. -/
noncomputable def span (g : MountedGraph K) (x : ℕ) : ℕ := {y | Spans g x y}.ncard

section Trees

variable {g : MountedGraph K} {a b c x y p : ℕ}

theorem cut_iff : Cut g a b ↔ isList g a = false ∧ (forest g).Child a b := by
  unfold Cut cutKids
  cases isList g a
  · simp [Forest.Child]
  · simp

theorem cut_child (h : Cut g a b) : (forest g).Child a b := (cut_iff.mp h).2

theorem spans_below (h : Spans g a b) : (forest g).Below a b :=
  Relation.ReflTransGen.mono (fun _ _ => cut_child) _ _ h

theorem cut_nodup (h : Shape g) (x : ℕ) : (cutKids g x).Nodup := by
  unfold cutKids
  split
  · exact List.nodup_nil
  · exact kids_nodup h.linked x

theorem below_mounted (hbelow : (forest g).Below x y) (hy : (forest g).Mounted y) :
    (forest g).Mounted x := by
  rcases Relation.ReflTransGen.cases_head hbelow with rfl | ⟨b, ⟨l, hl⟩, -⟩
  · exact hy
  · exact mounted_of_kid hl

theorem spanned_listed (h : Shape g) (x : ℕ) : ∃ xs : List ℕ, xs.Nodup ∧
    (∀ y, y ∈ xs ↔ Spans g x y) ∧ xs.length = ((cutKids g x).map (span g)).sum + 1 := by
  induction hn : (forest g).weight x using Nat.strong_induction_on generalizing x with
  | _ n ih =>
  have below (c : ℕ) (hc : c ∈ cutKids g x) : ∃ xs : List ℕ, xs.Nodup ∧ (∀ y, y ∈ xs ↔ Spans g c y) ∧
      xs.length = span g c := by
    obtain ⟨xs, nodup, mem, -⟩ := ih _ (hn ▸ weight_child h.weighed (cut_child hc)) c rfl
    refine ⟨xs, nodup, mem, ?_⟩
    rw [span, ← List.toFinset_card_of_nodup nodup, ← Set.ncard_coe_finset]
    congr 1
    ext y
    simp [mem]
  choose! xs nodup mem length using below
  have mem_all (y : ℕ) : y ∈ (cutKids g x).flatMap xs ↔ ∃ c, Cut g x c ∧ Spans g c y := by
    rw [List.mem_flatMap]
    exact exists_congr fun c => and_congr_right fun hc => mem c hc y
  refine ⟨x :: (cutKids g x).flatMap xs, List.nodup_cons.mpr ⟨?_, ?_⟩, fun y => ?_, ?_⟩
  · rw [mem_all]
    rintro ⟨c, hc, hcx⟩
    exact no_way_back h (cut_child hc) (spans_below hcx)
  · rw [List.nodup_flatMap]
    refine ⟨nodup, (cut_nodup h x).imp_of_mem fun {c d} hc hd hne y hcy hdy => hne ?_⟩
    exact siblings_apart h.linked h.weighed (cut_child hc) (cut_child hd)
      (spans_below ((mem c hc y).mp hcy)) (spans_below ((mem d hd y).mp hdy))
  · rw [List.mem_cons, mem_all]
    constructor
    · rintro (rfl | ⟨c, hc, hcy⟩)
      · exact .refl
      · exact .head hc hcy
    · intro hxy
      rcases Relation.ReflTransGen.cases_head hxy with rfl | ⟨c, hc, hcy⟩
      · exact .inl rfl
      · exact .inr ⟨c, hc, hcy⟩
  · rw [List.length_cons, List.length_flatMap, List.map_congr_left length]

theorem span_unfold (h : Shape g) (x : ℕ) : span g x = ((cutKids g x).map (span g)).sum + 1 := by
  obtain ⟨xs, nodup, mem, length⟩ := spanned_listed h x
  rw [← length, span, ← List.toFinset_card_of_nodup nodup, ← Set.ncard_coe_finset]
  congr 1
  ext y
  simp [mem]

theorem span_finite (h : Shape g) (x : ℕ) : {y | Spans g x y}.Finite := by
  obtain ⟨xs, -, mem, -⟩ := spanned_listed h x
  exact xs.toFinset.finite_toSet.subset fun y hy => by simpa using (mem y).mpr hy

theorem span_mono (h : Shape g) (hxy : Spans g x y) : span g y ≤ span g x :=
  Set.ncard_le_ncard (fun _ hz => hxy.trans hz) (span_finite h x)

theorem span_self (h : Shape g) (x : ℕ) : 0 < span g x := by
  rw [span_unfold h]
  exact Nat.succ_pos _

end Trees

section Edits

variable {g v : MountedGraph K} {removed : List ℕ} {nodes : List (Node K)} {frontier : Finset ℕ}
  {tops : List (ℕ × Option (ParentLocation K))} {site root : Option ℕ} {a b x y p : ℕ}
  (e : Grafted g v removed nodes frontier tops site root) (h : Shape g)

include e h

theorem list_kept (hm : (forest g).Mounted x) (hr : x ∉ removed) : isList v x = isList g x := by
  unfold isList
  rw [e.kind_kept h hm hr]

theorem item_kept (hm : (forest g).Mounted x) (hr : x ∉ removed) : isItem v x = isItem g x := by
  unfold isItem
  rw [e.kind_kept h hm hr]

theorem cut_kept (hm : (forest g).Mounted x) (hr : x ∉ removed) (hs : site ≠ some x) :
    cutKids v x = cutKids g x := by
  rw [cutKids, cutKids, list_kept e h hm hr, e.kids_kept h hm hr hs]

omit h in
theorem child_stays (h : Shape g) (ha : a ∉ removed) (hs : site ≠ some a) (hc : (forest g).Child a b) :
    b ∉ removed := by
  obtain ⟨l, hl⟩ := hc
  exact kid_kept e h ha hs hl

theorem child_kept (ha : a ∉ removed) (hb : b ∉ removed) (hc : (forest g).Child a b) :
    (forest v).Child a b := by
  obtain ⟨l, hl⟩ := hc
  refine ⟨l, ?_⟩
  by_cases hs : site = some a
  · exact (e.kids_site hs b l).mpr (.inr ⟨hl, hb⟩)
  · rwa [e.kids_kept h (mounted_of_kid hl) ha hs]

theorem spans_stay (hm : (forest g).Mounted x) (hr : x ∉ removed) (away : ∀ p ∈ site, ¬Spans g x p)
    (hxy : Spans g x y) : (forest g).Mounted y ∧ y ∉ removed := by
  induction hxy with
  | refl => exact ⟨hm, hr⟩
  | tail hxz hzy ih =>
    obtain ⟨l, hl⟩ := cut_child hzy
    exact ⟨(h.linked.placed hl).1, child_stays e h ih.2 (fun hs => away _ hs hxz) ⟨l, hl⟩⟩

theorem spans_kept (hm : (forest g).Mounted x) (hr : x ∉ removed) (away : ∀ p ∈ site, ¬Spans g x p) :
    Spans v x y ↔ Spans g x y := by
  have same {z : ℕ} (hxz : Spans g x z) : cutKids v z = cutKids g z := by
    obtain ⟨hz, hr⟩ := spans_stay e h hm hr away hxz
    exact cut_kept e h hz hr fun hs => away _ hs hxz
  constructor
  · intro hxy
    induction hxy with
    | refl => exact .refl
    | tail _ hzy ih => exact ih.tail (show _ ∈ _ from same ih ▸ hzy)
  · intro hxy
    induction hxy with
    | refl => exact .refl
    | tail hxz hzy ih => exact ih.tail (show _ ∈ _ from (same hxz).symm ▸ hzy)

theorem span_kept (hm : (forest g).Mounted x) (hr : x ∉ removed) (away : ∀ p ∈ site, ¬Spans g x p) :
    span v x = span g x := by
  rw [span, span]
  congr 1
  ext y
  exact spans_kept e h hm hr away

end Edits

section Site

variable {g v : MountedGraph K} {r : Replacement K} {plan : ReplacementPlan K} {a c x q old : ℕ}
  (h : Shape g) (p : Planned r g plan)
  (e : Grafted g v plan.removedIds r.nodes plan.frontier [(r.root, plan.parentLocation)]
    (siteOf plan) (rootAfter r plan g)) (hq : siteOf plan = some q)

include h p hq

theorem above_site (hbelow : (forest g).Below x q) : x ∉ plan.removedIds ∧ x ∉ plan.frontier := by
  rw [← not_or]
  intro hx
  obtain ⟨location, hl, rfl⟩ := Option.map_eq_some_iff.mp hq
  obtain ⟨old, hold, hkid⟩ := old_kid h p hl
  obtain ⟨old', hold', hunder⟩ := under_old p hx
  obtain rfl := Option.some.inj (hold.symm.trans hold')
  exact no_way_back h ⟨location, hkid⟩ (hunder.trans hbelow)

include e

omit h p in
theorem site_mounted : (forest g).Mounted q := (e.graft.site_kept q hq).1

theorem child_above (hbelow : (forest g).Below c q) (hc : (forest v).Child a c) :
    (forest g).Child a c := by
  obtain ⟨hr, hf⟩ := above_site h p hq hbelow
  have hm := below_mounted hbelow (site_mounted e hq)
  obtain ⟨l, hl⟩ := hc
  have hp := (e.parent_kept h hm hr hf).symm.trans ((e.shape h).linked.placed hl).2
  rw [← (e.shape h).linked.owned hl]
  exact ⟨l, h.linked.listed hm hp⟩

theorem above_same (hbelow : (forest v).Below x q) : (forest g).Below x q := by
  induction hbelow using Relation.ReflTransGen.head_induction_on with
  | refl => exact .refl
  | head hac _ ih => exact .head (child_above h p e hq ih hac) ih

theorem same_above (hbelow : (forest g).Below x q) : (forest v).Below x q := by
  induction hbelow using Relation.ReflTransGen.head_induction_on with
  | refl => exact .refl
  | head hac hcq ih =>
    exact .head (child_kept e h (above_site h p hq (.head hac hcq)).1 (above_site h p hq hcq).1 hac) ih

theorem list_above (hbelow : (forest g).Below x q) : isList v x = isList g x :=
  list_kept e h (below_mounted hbelow (site_mounted e hq)) (above_site h p hq hbelow).1

theorem spans_above {y : ℕ} (hy : (forest g).Below y q) : Spans v x y ↔ Spans g x y := by
  constructor
  · intro hx
    induction hx using Relation.ReflTransGen.head_induction_on with
    | refl => exact .refl
    | head hac _ ih =>
      obtain ⟨hlist, hchild⟩ := cut_iff.mp hac
      have hbelow := (spans_below ih).trans hy
      have hchild := child_above h p e hq hbelow hchild
      exact .head (cut_iff.mpr ⟨list_above h p e hq (.head hchild hbelow) ▸ hlist, hchild⟩) ih
  · intro hx
    induction hx using Relation.ReflTransGen.head_induction_on with
    | refl => exact .refl
    | head hac hcy ih =>
      obtain ⟨hlist, hchild⟩ := cut_iff.mp hac
      have hbelow := (spans_below hcy).trans hy
      refine .head (cut_iff.mpr ⟨?_, ?_⟩) ih
      · rw [list_above h p e hq (.head hchild hbelow), hlist]
      · exact child_kept e h (above_site h p hq (.head hchild hbelow)).1
          (above_site h p hq hbelow).1 hchild

omit hq
variable {location : ParentLocation K} {before after : List (ℕ × ParentLocation K)}
  (hl : plan.parentLocation = some location)
  (around : Hung g v plan.removedIds old r.root location before after)

include hl around

omit p in
theorem span_beside {d : ℕ × ParentLocation K} (hd : d ∈ before ++ after) : span v d.1 = span g d.1 := by
  have hkid : (d.1, d.2) ∈ (forest g).kids location.parent := by
    rw [around.was]
    rcases List.mem_append.mp hd with hd | hd <;> simp [hd]
  refine span_kept e h (h.linked.placed hkid).1 (around.kept d hd) fun q hq hspans => ?_
  rw [siteOf, hl, Option.map_some] at hq
  obtain rfl := Option.some.inj hq
  exact no_way_back h ⟨d.2, hkid⟩ (spans_below hspans)

theorem span_resized (hlist : isList g location.parent = false) (hx : Spans g x location.parent) :
    span v x + span g old = span g x + span v r.root := by
  have hq : siteOf plan = some location.parent := by rw [siteOf, hl, Option.map_some]
  induction hx using Relation.ReflTransGen.head_induction_on with
  | refl =>
    have hlist' : isList v location.parent = false := (list_above h p e hq .refl).trans hlist
    have same {ds : List (ℕ × ParentLocation K)} (hds : ∀ d ∈ ds, d ∈ before ++ after) :
        (ds.map fun d => span v d.1).sum = (ds.map fun d => span g d.1).sum :=
      congrArg List.sum (List.map_congr_left fun d hd => span_beside h e hl around (hds d hd))
    rw [span_unfold (e.shape h), span_unfold h location.parent, cutKids, cutKids, hlist, hlist',
      around.was, around.now]
    simp only [Bool.false_eq_true, if_false, List.map_append, List.map_cons, List.map_map,
      List.sum_append, List.sum_cons, Function.comp_def]
    rw [same fun d hd => List.mem_append_left _ hd, same fun d hd => List.mem_append_right _ hd]
    omega
  | @head a c hac hcq ih =>
    have hchild := cut_child hac
    have hcq' := spans_below hcq
    have haq : (forest g).Below a location.parent := .head hchild hcq'
    obtain ⟨hr, -⟩ := above_site h p hq haq
    have hne : siteOf plan ≠ some a := fun hs => by
      obtain rfl := Option.some.inj (hq.symm.trans hs)
      exact no_way_back h hchild hcq'
    have hm := below_mounted haq (site_mounted e hq)
    obtain ⟨front, back, hcut⟩ := List.append_of_mem (show c ∈ cutKids g a from hac)
    have nodup := cut_nodup h a
    rw [hcut, List.nodup_middle, List.nodup_cons] at nodup
    -- no other child has the site below it
    have same {ds : List ℕ} (hds : ∀ d ∈ ds, d ∈ front ++ back) :
        (ds.map (span v)).sum = (ds.map (span g)).sum := by
      refine congrArg List.sum (List.map_congr_left fun d hd => ?_)
      have hd := hds d hd
      have hcut_d : Cut g a d := by
        change d ∈ cutKids g a
        rw [hcut]
        rcases List.mem_append.mp hd with hd | hd <;> simp [hd]
      obtain ⟨l, hkid⟩ := cut_child hcut_d
      refine span_kept e h (h.linked.placed hkid).1 (child_stays e h hr hne ⟨l, hkid⟩) fun q hs hdq => ?_
      obtain rfl := Option.some.inj (hq.symm.trans hs)
      exact nodup.1 (siblings_apart h.linked h.weighed hchild ⟨l, hkid⟩ hcq' (spans_below hdq) ▸ hd)
    rw [span_unfold (e.shape h) a, span_unfold h a, cut_kept e h hm hr hne, hcut]
    simp only [List.map_append, List.map_cons, List.sum_append, List.sum_cons]
    rw [same fun d hd => List.mem_append_left _ hd, same fun d hd => List.mem_append_right _ hd]
    omega

end Site

section Keys

variable {g : MountedGraph K} {x : ℕ} {s : IdentitySegment} {path : ElementIdentity}
  {l : ParentLocation K}

def ofList : IdentitySegment → Bool
  | .boundary _ => false
  | .named tag .. => tag = 11
  | .positional tag _ => tag = 11

omit [DecidableEq K] in
theorem of_list (n : Node K) (index occurrence : ℕ) : ofList (.of n index occurrence) =
    match n.kind with
    | .virtualList .. => true
    | _ => false := by
  unfold IdentitySegment.of
  cases n.kind <;> dsimp only <;> first | rfl | (split <;> rfl)

theorem list_key (own : OwnKey g x) (hs : g.cachedSegment x = some s) : ofList s = isList g x := by
  obtain ⟨n, hn⟩ := node_exists (mounted_of_key hs)
  obtain ⟨index, occurrence, rfl⟩ := own n s hn hs
  rw [of_list, isList, hn]
  cases hk : n.kind <;> simp [hk]

theorem under_iff (h : Shape g) (hp : g.parentLocation x = some l) :
    UnderList g x ↔ ∃ a, isList g a = true ∧ (forest g).Below a l.parent := by
  have hkid := h.linked.listed (mounted_iff.mpr (mounted_of_parent hp)) hp
  refine exists_congr fun a => and_congr_right fun _ => Relation.TransGen.tail'_iff.trans ⟨?_, ?_⟩
  · rintro ⟨b, hab, hbx⟩
    rwa [child_unique h.linked ⟨l, hkid⟩ hbx]
  · exact fun hal => ⟨l.parent, hal, l, hkid⟩

theorem top_not_under (h : Shape g) (hp : g.parentLocation x = none) : ¬UnderList g x := by
  rintro ⟨a, -, hax⟩
  obtain ⟨b, -, l, hl⟩ := Relation.TransGen.tail'_iff.mp hax
  cases hp.symm.trans (h.linked.placed hl).2

theorem path_lists (h : Shape g) (own : ∀ x, OwnKey g x) (hx : PathTo g x path) :
    (∃ a, isList g a = true ∧ (forest g).Below a x) ↔ ∃ s ∈ path, ofList s = true := by
  have self {x : ℕ} : (∃ a, isList g a = true ∧ (forest g).Below a x) ↔
      UnderList g x ∨ isList g x = true := by
    constructor
    · rintro ⟨a, ha, hax⟩
      rcases Relation.reflTransGen_iff_eq_or_transGen.mp hax with rfl | hax
      · exact .inr ha
      · exact .inl ⟨a, ha, hax⟩
    · rintro (⟨a, ha, hax⟩ | hx)
      · exact ⟨a, ha, hax.to_reflTransGen⟩
      · exact ⟨x, hx, .refl⟩
  induction hx with
  | @top x s hp hs =>
    rw [self, ← list_key (own x) hs]
    simp [top_not_under h hp]
  | @under x s l path hp hpath hs ih =>
    refine self.trans ((or_congr_left ((under_iff h hp).trans ih)).trans ?_)
    rw [← list_key (own x) hs]
    simp [or_and_right, exists_or]

theorem path_under (h : Shape g) (own : ∀ x, OwnKey g x) (hx : PathTo g x path) :
    UnderList g x ↔ ∃ s ∈ path.dropLast, ofList s = true := by
  cases hx with
  | top hp => simp [top_not_under h hp]
  | under hp hpath => rw [under_iff h hp, path_lists h own hpath, List.dropLast_concat]

end Keys

section Scopes

variable {g v : MountedGraph K}

/-- What stays is under a list only if it was, when that holds of what is hung elsewhere. -/
theorem under_kept {removed : List ℕ} {nodes : List (Node K)} {frontier : Finset ℕ}
    {tops : List (ℕ × Option (ParentLocation K))} {site root : Option ℕ} {x : ℕ}
    (e : Grafted g v removed nodes frontier tops site root) (h : Shape g)
    (moved : ∀ x ∈ frontier, UnderList v x → UnderList g x) (hm : (forest g).Mounted x)
    (hr : x ∉ removed) (hx : UnderList v x) : UnderList g x := by
  obtain ⟨a, ha, hax⟩ := hx
  induction hax with
  | @single x hchild =>
    by_cases hf : x ∈ frontier
    · exact moved x hf ⟨a, ha, .single hchild⟩
    · obtain ⟨l, hl⟩ := hchild
      have hp := (e.parent_kept h hm hr hf).symm.trans ((e.shape h).linked.placed hl).2
      have hkid := h.linked.listed hm hp
      rw [(e.shape h).linked.owned hl] at hkid
      have hra : a ∉ removed := fun hgone =>
        hf (e.graft.all_kept hm hr hp ((e.shape h).linked.owned hl ▸ hgone))
      exact ⟨a, list_kept e h (mounted_of_kid hkid) hra ▸ ha, .single ⟨l, hkid⟩⟩
  | @tail b x hab hchild ih =>
    by_cases hf : x ∈ frontier
    · exact moved x hf ⟨a, ha, hab.tail hchild⟩
    · obtain ⟨l, hl⟩ := hchild
      have hp := (e.parent_kept h hm hr hf).symm.trans ((e.shape h).linked.placed hl).2
      have hkid := h.linked.listed hm hp
      rw [(e.shape h).linked.owned hl] at hkid
      have hrb : b ∉ removed := fun hgone =>
        hf (e.graft.all_kept hm hr hp ((e.shape h).linked.owned hl ▸ hgone))
      obtain ⟨a', ha', hab'⟩ := ih (mounted_of_kid hkid) hrb
      exact ⟨a', ha', hab'.tail ⟨l, hkid⟩⟩

variable {r : Replacement K} {plan : ReplacementPlan K} {x : ℕ} {path outer : ElementIdentity}
  (h : Shape g) (p : Planned r g plan)
  (e : Grafted g v plan.removedIds r.nodes plan.frontier [(r.root, plan.parentLocation)]
    (siteOf plan) (rootAfter r plan g))

omit [DecidableEq K] in
theorem root_segment_of [DecidableEq K] {parent : Option (ℕ × ℕ)} {n : Node K} {s : IdentitySegment}
    (hs : rootSegmentOf g parent n = .ok s) : ∃ index occurrence, s = .of n index occurrence := by
  unfold rootSegmentOf at hs
  split at hs
  · exact ⟨0, 0, (Except.ok.inj hs).symm⟩
  · dsimp only at hs
    split at hs
    · obtain ⟨children, -, hs⟩ := except_bind_ok.mp hs
      obtain ⟨occurrence, -, hs⟩ := except_bind_ok.mp hs
      exact ⟨_, occurrence, (Except.ok.inj hs).symm⟩
    · exact ⟨_, 0, (Except.ok.inj hs).symm⟩

omit [DecidableEq K] in
theorem segment_of_kind {n : Node K} {s : IdentitySegment}
    (hkind : (v.node x).map (·.kind) = some n.kind) (hs : ∃ index occurrence, s = .of n index occurrence) :
    ofList s = isList v x := by
  obtain ⟨index, occurrence, rfl⟩ := hs
  rw [of_list, isList, hkind]
  cases n.kind <;> rfl

include h p e

theorem staged_listed (own : ∀ x, OwnKey g x) (hplan : planReplacement r g = .ok plan)
    (houter : identityAt g plan.parent = .ok outer) (hx : PathTo v x path)
    (hc : x ∈ ids r.nodes ∨ x ∈ plan.frontier) : ∃ above s,
      Scoped g plan.frontier plan.validated r.root (outer ++ [plan.rootSegment]) x (above ++ [s]) ∧
      (UnderList v x → ∃ t ∈ above, ofList t = true) ∧ ofList s = isList v x := by
  have h' := e.shape h
  obtain ⟨-, m, -, hlocation, hm, hsegment, -⟩ := plan_scopes hplan
  have hroot : ofList plan.rootSegment = isList v r.root :=
    segment_of_kind (kind_of_lookup h p e p.fragment.root_listed hm) (root_segment_of hsegment)
  induction hx with
  | @top x key hp hkey =>
    rcases e.graft.placed x hc with hchild | htop
    · obtain ⟨n, hn, hmem⟩ := mem_childIds.mp hchild
      obtain ⟨l, hl, -⟩ := e.parent_fresh h hn hmem
      cases hp.symm.trans hl
    · obtain rfl : x = r.root := by simpa using htop
      exact ⟨outer, plan.rootSegment, .here, fun hu => absurd hu (top_not_under h' hp), hroot⟩
  | @under x key l path hp hpath hkey ih =>
    rcases e.graft.placed x hc with hchild | htop
    · obtain ⟨n, hn, hmem⟩ := mem_childIds.mp hchild
      obtain ⟨l', hl', hid⟩ := e.parent_fresh h hn hmem
      obtain rfl := Option.some.inj (hp.symm.trans hl')
      have hin : n.id ∈ ids r.nodes := List.mem_map_of_mem hn
      rw [hid] at ih
      obtain ⟨above, t, hscoped, habove, ht⟩ := ih (.inl hin)
      have hkind := lookup_kind h p e hn hmem
      obtain ⟨n', hn'⟩ := node_exists (mounted_of_key hkey)
      rw [hn', Option.map_some, eq_comm, Option.map_eq_some_iff] at hkind
      obtain ⟨k, hk, hsame⟩ := hkind
      obtain ⟨s, hs⟩ := segment_exists (plan.validated.lookup g.node) hmem (by rw [hk]; rfl) ∅ 0
      refine ⟨above ++ [t], s, scoped_child hscoped (p.fragment.apart _ hin)
        (p.fragment.fresh.mpr ⟨hn, rfl⟩) hs, fun hu => ?_, ?_⟩
      · obtain ⟨a, ha, hbelow⟩ := (under_iff h' hp).mp hu
        rw [hid] at hbelow
        rcases Relation.reflTransGen_iff_eq_or_transGen.mp hbelow with heq | hbelow
        · exact ⟨t, by simp, ht.trans (heq ▸ ha)⟩
        · obtain ⟨u, hu, hlist⟩ := habove ⟨a, ha, hbelow⟩
          exact ⟨u, by simp [hu], hlist⟩
      · exact segment_of_kind (by rw [hn', Option.map_some, hsame]) (segment_own hk hs)
    · obtain rfl : x = r.root := by simpa using htop
      have hl : plan.parentLocation = some l := (e.parent_top (by simp)).symm.trans hp
      have hsite : siteOf plan = some l.parent := by rw [siteOf, hl, Option.map_some]
      refine ⟨outer, plan.rootSegment, .here, fun hu => ?_, hroot⟩
      rw [hlocation, hl, Option.map_some] at houter
      have houter : g.identity (attachment l).1 = .ok outer := houter
      rw [attachment_parent] at houter
      obtain ⟨a, ha, hbelow⟩ := (under_iff h' hp).mp hu
      have hbelow' := above_same h p e hsite hbelow
      exact (path_lists h own (path_of_identity houter)).mp
        ⟨a, list_above h p e hsite hbelow' ▸ ha, hbelow'⟩

/-- A retained subtree is under a list only if it was: its scope was checked. -/
theorem retained_under (own : ∀ x, OwnKey g x) (hplan : planReplacement r g = .ok plan)
    (hf : x ∈ plan.frontier) (hx : UnderList v x) : UnderList g x := by
  obtain ⟨outer, -, houter, -, -, -, hscopes, -⟩ := plan_scopes hplan
  have hm : (forest v).Mounted x :=
    (e.mounted h x).mpr (.inl ⟨(e.graft.kept x hf).1, (e.graft.kept x hf).2.1⟩)
  obtain ⟨path, hpath, -⟩ := path_exists (e.shape h) hm
  obtain ⟨above, s, hscoped, habove, -⟩ := staged_listed h p e own hplan houter hpath (.inr hf)
  have hold := ((scopes_checked hscopes).1 x _ hscoped).retained hf
  rw [path_under h own hold, List.dropLast_concat]
  exact habove hx

end Scopes

end VirtualSpans
