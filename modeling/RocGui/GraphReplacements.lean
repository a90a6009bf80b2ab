import RocGui.GraphGrafts

/-! A mount or replacement that is accepted keeps the shape of the graph. -/
namespace GraphReplacements

open FiniteMaps KeyedLists Methods KeyedOrder KeyedOrderLists GraphState FragmentValidation
open GraphPatches FragmentTrees GraphForests GraphMounting GraphExchanges GraphGrafts
open PointerTrees StackWalks

variable {K : Type} [DecidableEq K]

section Attaching

variable {t t' : MountedGraph K} {location : ParentLocation K} {root old : ℕ}

/-- What hanging a new root at `location`, below `p`, does to `p`. -/
structure Attached (t t' : MountedGraph K) (p : ℕ) (location : ParentLocation K) (top : ℕ) :
    Prop where
  content : ∀ x, x ≠ p → content t' x = content t x
  kinds : ∀ x, (t'.node x).map (·.kind) = (t.node x).map (·.kind)
  filed : ∀ x c', GraphMounting.content t' x = some c' →
    ∃ c, GraphMounting.content t x = some c ∧ Refiled c c'
  parents : t'.parentLocation = t.parentLocation
  sizes : t'.subtreeSize = t.subtreeSize
  root : t'.root = t.root
  issued : t'.maxSeenNodeId = t.maxSeenNodeId
  mounted : (t'.nodes.get p).isSome
  order : ∀ {e o}, t'.nodes.get p = some e → e.keyedChildren = some o → ∃ l, Represents o l
  kids : ∀ c l, (c, l) ∈ (forest t').kids p ↔
    c = top ∧ l = location ∨ (c, l) ∈ (forest t).kids p ∧ l ≠ location

theorem attached_put {p : ℕ} {e e' : MountedNode K} (he : t.nodes.get p = some e)
    (hk : e'.node.kind = e.node.kind) 
    (hfiled : Refiled (e.node, e.keyedChildren) (e'.node, e'.keyedChildren)) (hp : e'.parent = e.parent)
    (hs : e'.subtreeSize = e.subtreeSize)
    (order : ∀ o, e'.keyedChildren = some o → ∃ l, Represents o l)
    (kids : ∀ c l, (c, l) ∈ locations p e' ↔
      c = root ∧ l = location ∨ (c, l) ∈ locations p e ∧ l ≠ location) :
    Attached t (put t p e') p location root := by
  have he' : (put t p e').nodes.get p = some e' := FiniteMap.get_set_self _ _ _
  refine ⟨fun x hx => ?_, fun x => ?_, fun x c' hc' => ?_, ?_, ?_, rfl, rfl, by rw [he']; rfl,
    fun {e o} h ho => ?_, fun c l => ?_⟩
  · rw [content_put, Function.update_of_ne hx]
  · rw [node_of_content, node_of_content, content_put]
    by_cases hx : x = p
    · rw [hx, Function.update_self, content_eq he]
      exact congrArg some hk
    · rw [Function.update_of_ne hx]
  · rw [content_put] at hc'
    by_cases hx : x = p
    · rw [hx, Function.update_self] at hc'
      obtain rfl := Option.some.inj hc'
      exact ⟨_, hx ▸ content_eq he, hfiled⟩
    · rw [Function.update_of_ne hx] at hc'
      exact ⟨c', hc', refiled_self c'⟩
  · rw [location_put, hp, ← location_eq he, Function.update_eq_self]
  · rw [size_put, hs, ← size_eq he, Function.update_eq_self]
  · obtain rfl := Option.some.inj (he'.symm.trans h)
    exact order o ho
  · rw [kids_eq he', kids_eq he]
    exact kids c l

omit [DecidableEq K] in
theorem mem_ordinary {p c : ℕ} {l : ParentLocation K} {children : List ℕ} :
    (c, l) ∈ children.zipIdx.map (ordinaryPlace p) ↔
      ∃ i, l = .ordinaryIndex p i ∧ children[i]? = some c := by
  rw [List.mem_map]
  constructor
  · rintro ⟨⟨c', i⟩, hmem, heq⟩
    obtain ⟨rfl, rfl⟩ := Prod.mk.inj heq
    exact ⟨i, rfl, List.mk_mem_zipIdx_iff_getElem?.mp hmem⟩
  · rintro ⟨i, rfl, hget⟩
    exact ⟨(c, i), List.mk_mem_zipIdx_iff_getElem?.mpr hget, rfl⟩

theorem attach_ordinary {parent index : ℕ}
    (hold : (old, .ordinaryIndex parent index) ∈ (forest t).kids parent) {u : Unit}
    (h : (attachRoot (.ordinaryIndex parent index) root).run t = .ok u t') :
    Attached t t' parent (.ordinaryIndex parent index) root := by
  simp only [attachRoot, bind_ok, get_ok, expect_ok] at h
  obtain ⟨_, _, ⟨rfl, rfl⟩, e, _, ⟨he, rfl⟩, hrest⟩ := h
  have hnone : e.keyedChildren = none := by
    rw [kids_eq he] at hold
    cases ho : e.keyedChildren with
    | none => rfl
    | some o => simp [locations, ho, keyedPlace] at hold
  split at hrest
  · obtain ⟨_, _, hpanic, -⟩ := bind_ok.mp hrest
    cases hpanic
  rename_i hin
  rw [not_le] at hin
  obtain ⟨e', he', rfl⟩ := alter_run_ok.mp hrest
  obtain rfl := Option.some.inj (he.symm.trans he')
  refine attached_put he rfl ⟨rfl, List.length_set, .inl⟩ rfl rfl
    (fun o ho => by simp [hnone] at ho) fun c l => ?_
  simp only [locations, hnone, mem_ordinary]
  constructor
  · rintro ⟨i, rfl, hget⟩
    by_cases hi : i = index
    · subst hi
      rw [List.getElem?_set_self hin] at hget
      exact .inl ⟨(Option.some.inj hget).symm, rfl⟩
    · rw [List.getElem?_set_ne (Ne.symm hi)] at hget
      exact .inr ⟨⟨i, rfl, hget⟩, by simpa using hi⟩
  · rintro (⟨rfl, rfl⟩ | ⟨⟨i, rfl, hget⟩, hne⟩)
    · exact ⟨index, rfl, List.getElem?_set_self hin⟩
    · refine ⟨i, rfl, ?_⟩
      rw [List.getElem?_set_ne]
      · exact hget
      · rintro rfl
        exact hne rfl

theorem attach_keyed {container instanceId : ℕ} {key : K}
    (orders : ∀ {e o}, t.nodes.get container = some e → e.keyedChildren = some o →
      ∃ l, Represents o l)
    (hold : (old, .keyed container key instanceId) ∈ (forest t).kids container) {u : Unit}
    (h : (attachRoot (.keyed container key instanceId) root).run t = .ok u t') :
    Attached t t' container (.keyed container key instanceId) root := by
  simp only [attachRoot, bind_ok, get_ok, expect_ok, alter_run_ok] at h
  obtain ⟨_, _, ⟨rfl, rfl⟩, e, _, ⟨he, rfl⟩, order, _, ⟨ho, rfl⟩, child, _, ⟨hchild, rfl⟩, e', he',
    rfl⟩ := h
  obtain rfl := Option.some.inj (he.symm.trans he')
  obtain ⟨l, hl⟩ := orders he ho
  have hafter := represents_root hl root hchild
  have hget : l.get key = some (old, instanceId) := by
    rw [kids_eq he] at hold
    simp only [locations, ho] at hold
    obtain ⟨k, i, heq, hget⟩ := (mem_keyed hl).mp hold
    cases heq
    exact hget
  refine attached_put he rfl ⟨rfl, rfl, fun _ => .inl (by rw [ho]; rfl)⟩ rfl rfl (fun o ho => ?_)
    fun c loc => ?_
  · obtain rfl := Option.some.inj ho
    exact ⟨_, hafter⟩
  simp only [locations, ho, mem_keyed hl, mem_keyed hafter, KeyedList.get_adjust]
  constructor
  · rintro ⟨k, i, rfl, hk⟩
    by_cases heq : k = key
    · subst heq
      rw [if_pos rfl, hget] at hk
      cases hk
      exact .inl ⟨rfl, rfl⟩
    · rw [if_neg heq] at hk
      refine .inr ⟨⟨k, i, rfl, hk⟩, fun h => heq ?_⟩
      cases h
      rfl
  · rintro (⟨rfl, rfl⟩ | ⟨⟨k, i, rfl, hk⟩, hne⟩)
    · exact ⟨key, instanceId, rfl, by rw [if_pos rfl, hget]; rfl⟩
    · refine ⟨k, i, rfl, ?_⟩
      rw [if_neg]
      · exact hk
      · rintro rfl
        rw [hget] at hk
        cases hk
        exact hne rfl

theorem attach_root (orders : ∀ {e o}, t.nodes.get location.parent = some e →
      e.keyedChildren = some o → ∃ l, Represents o l)
    (hold : (old, location) ∈ (forest t).kids location.parent) {u : Unit}
    (h : (attachRoot location root).run t = .ok u t') :
    Attached t t' location.parent location root := by
  cases location with
  | ordinaryIndex parent index => exact attach_ordinary hold h
  | keyed container key instanceId => exact attach_keyed orders hold h

def rehang (location : ParentLocation K) (root : ℕ) (c : ℕ × ParentLocation K) :
    ℕ × ParentLocation K := if c.2 = location then (root, location) else c

omit [DecidableEq K] in
theorem ordinary_at (p i : ℕ) (children : List ℕ) :
    (children.zipIdx.map (ordinaryPlace p) : List (ℕ × ParentLocation K))[i]? =
      children[i]?.map fun c => (c, .ordinaryIndex p i) := by
  rw [List.getElem?_map, List.getElem?_zipIdx, Option.map_map]
  cases children[i]? with
  | none => rfl
  | some c => simp [ordinaryPlace]

theorem attach_kids (orders : ∀ {e o}, t.nodes.get location.parent = some e →
      e.keyedChildren = some o → ∃ l, Represents o l)
    (hold : (old, location) ∈ (forest t).kids location.parent) {u : Unit}
    (h : (attachRoot location root).run t = .ok u t') : (forest t').kids location.parent =
      ((forest t).kids location.parent).map (rehang location root) := by
  cases location with
  | ordinaryIndex parent index =>
    simp only [attachRoot, bind_ok, get_ok, expect_ok] at h
    obtain ⟨_, _, ⟨rfl, rfl⟩, e, _, ⟨he, rfl⟩, hrest⟩ := h
    simp only [ParentLocation.parent] at hold ⊢
    have hnone : e.keyedChildren = none := by
      rw [kids_eq he] at hold
      cases ho : e.keyedChildren with
      | none => rfl
      | some o => simp [locations, ho, keyedPlace] at hold
    split at hrest
    · obtain ⟨_, _, hpanic, -⟩ := bind_ok.mp hrest
      cases hpanic
    rename_i hin
    rw [not_le] at hin
    obtain ⟨e', he', rfl⟩ := alter_run_ok.mp hrest
    obtain rfl := Option.some.inj (he.symm.trans he')
    rw [kids_eq he, kids_eq (FiniteMap.get_set_self _ _ _)]
    simp only [locations, hnone]
    refine List.ext_getElem? fun i => ?_
    rw [ordinary_at, List.getElem?_map, ordinary_at]
    by_cases hi : i = index
    · subst hi
      rw [List.getElem?_set_self hin, List.getElem?_eq_getElem hin]
      simp [rehang]
    · rw [List.getElem?_set_ne (Ne.symm hi)]
      cases e.node.children[i]? with
      | none => rfl
      | some c => simp [rehang, hi]
  | keyed container key instanceId =>
    simp only [attachRoot, bind_ok, get_ok, expect_ok, alter_run_ok] at h
    obtain ⟨_, _, ⟨rfl, rfl⟩, e, _, ⟨he, rfl⟩, order, _, ⟨ho, rfl⟩, child, _, ⟨hchild, rfl⟩, e', he',
      rfl⟩ := h
    obtain rfl := Option.some.inj (he.symm.trans he')
    simp only [ParentLocation.parent] at hold orders ⊢
    obtain ⟨l, hl⟩ := orders he ho
    have hafter := represents_root hl root hchild
    rw [kids_eq he] at hold ⊢
    rw [kids_eq (FiniteMap.get_set_self _ _ _)]
    simp only [locations, ho] at hold ⊢
    obtain ⟨k, i, heq, hget⟩ := (mem_keyed hl).mp hold
    cases heq
    rw [entries_of hl, entries_of hafter, KeyedList.adjust, List.map_map, List.map_map]
    refine List.map_congr_left fun entry hentry => ?_
    obtain ⟨k, r, i⟩ := entry
    by_cases hk : k = key
    · subst hk
      have hsame := mem_entries_iff.mp hentry
      cases hget.symm.trans hsame
      simp [rehang, keyedPlace]
    · simp [rehang, keyedPlace, hk]

end Attaching

section Planning

variable {r : Replacement K} {g : MountedGraph K} {plan : ReplacementPlan K}

structure Planned (r : Replacement K) (g : MountedGraph K) (plan : ReplacementPlan K) : Prop where
  first : r.oldRoot = none → g.root = none
  target : ∀ id ∈ r.oldRoot, (forest g).Mounted id
  location : plan.parentLocation = r.oldRoot.bind g.parentLocation
  frontier : ∀ c ∈ plan.frontier, (forest g).Mounted c ∧ r.oldRoot ≠ some c
  walked : ∃ met, Walked (forest g) (· ∈ plan.frontier) r.oldRoot.toList plan.removedIds met ∧
    met.toFinset = plan.frontier
  fragment : Fragment r.root r.nodes plan.frontier plan.validated
  fresh : ∀ n ∈ r.nodes, g.maxSeenNodeId < n.id

theorem check_target (h : checkTarget r g = .ok ⟨⟩) :
    (r.oldRoot = none → g.root = none) ∧ ∀ id ∈ r.oldRoot, (forest g).Mounted id := by
  unfold checkTarget at h
  split at h
  · rename_i hold
    split at h
    · cases h
    · rename_i hroot
      exact ⟨fun _ => Option.not_isSome_iff_eq_none.mp hroot, by simp [hold]⟩
  · rename_i id hold
    split at h
    · cases h
    · rename_i hid
      refine ⟨by simp [hold], fun x hx => mounted_iff.mpr ?_⟩
      obtain rfl : id = x := Option.some.inj (hold.symm.trans hx)
      exact Option.isSome_iff_ne_none.mpr fun heq => hid (by simp [heq])

omit [DecidableEq K] in
theorem check_retained {frontier frontier' : Finset ℕ} {count count' : ℕ} {ids : List ℕ}
    (start : ∀ c ∈ frontier, (∃ e i, g.nodes.get c = some e ∧ e.node.kind = .boundary i) ∧
      r.oldRoot ≠ some c)
    (h : checkRetained g r.oldRoot frontier count ids = .ok (frontier', count')) :
    ∀ c ∈ frontier', (∃ e i, g.nodes.get c = some e ∧ e.node.kind = .boundary i) ∧
      r.oldRoot ≠ some c := by
  induction ids generalizing frontier count with
  | nil =>
    obtain ⟨rfl, -⟩ := Prod.mk.inj (Except.ok.inj h)
    exact start
  | cons id rest ih =>
    simp only [checkRetained] at h
    split at h
    · cases h
    split at h
    · cases h
    rename_i e he
    split at h
    · rename_i i hk
      split at h
      · cases h
      · rename_i hne
        refine ih (fun c hc => ?_) h
        rcases Finset.mem_insert.mp hc with rfl | hc
        · exact ⟨⟨e, i, he, hk⟩, fun heq => hne heq.symm⟩
        · exact start c hc
    · cases h

omit [DecidableEq K] in
theorem check_staged {removed : Finset ℕ} {validated : ValidatedFragment K} {nodes : List (Node K)}
    (h : nodes.forM (checkStaged g removed validated) = .ok ⟨⟩) :
    ∀ n ∈ nodes, g.maxSeenNodeId < n.id := by
  induction nodes with
  | nil => simp
  | cons n rest ih =>
    rw [List.forM, except_bind_ok] at h
    obtain ⟨_, hn, hrest⟩ := h
    rintro m hm
    rcases List.mem_cons.mp hm with rfl | hm
    · unfold checkStaged at hn
      split at hn
      · cases hn
      · rename_i hlt
        exact not_le.mp hlt
    · exact ih hrest m hm

theorem planned (shape : Shape g) (h : planReplacement r g = .ok plan) : Planned r g plan := by
  simp only [planReplacement, reject_guard_ok, except_bind_ok, not_not] at h
  obtain ⟨_, htarget, ⟨frontier, retainedNodes⟩, hretained, ⟨removedIds, found⟩, hwalk, hfound,
    owner, _, validated, hvalidated, _, hstaged, outer, _, node, _, segment, _, _, _, heq⟩ := h
  cases heq
  obtain ⟨first, target⟩ := check_target htarget
  obtain ⟨met, walked, hmet⟩ := collect_retired shape hwalk
  exact {
    first
    target
    location := rfl
    frontier := fun c hc => (check_retained (by simp) hretained c hc).imp_left
      fun ⟨e, i, he, _⟩ => mounted_iff.mpr (Option.isSome_of_eq_some he)
    walked := ⟨met, walked, hmet.trans hfound⟩
    fragment := validated_fragment (except_mapError_ok.mp hvalidated)
    fresh := check_staged hstaged }

theorem plan_checks (h : planReplacement r g = .ok plan) :
    (∀ c ∈ plan.frontier, ∃ e i, g.nodes.get c = some e ∧ e.node.kind = .boundary i) ∧
      ∃ outer, ownerAt g plan.parent = .ok outer ∧ plan.parent = plan.parentLocation.map attachment ∧
        validateFragment r.root r.nodes plan.frontier outer g.node = .ok plan.validated ∧
        r.nodes.forM (checkStaged g plan.removedIds.toFinset plan.validated) = .ok ⟨⟩ := by
  simp only [planReplacement, reject_guard_ok, except_bind_ok, not_not] at h
  obtain ⟨_, -, ⟨frontier, retainedNodes⟩, hretained, ⟨removedIds, found⟩, -, -, owner, howner,
    validated, hvalidated, _, hstaged, outer, _, node, _, segment, _, _, _, heq⟩ := h
  cases heq
  exact ⟨fun c hc => (check_retained (by simp) hretained c hc).1, owner, howner, rfl,
    except_mapError_ok.mp hvalidated, hstaged⟩

theorem plan_scopes (h : planReplacement r g = .ok plan) : ∃ outer node,
    identityAt g plan.parent = .ok outer ∧ plan.parent = plan.parentLocation.map attachment ∧
      plan.validated.lookup g.node r.root = some node ∧
      rootSegmentOf g plan.parent node = .ok plan.rootSegment ∧
      checkScopes g plan.frontier plan.validated plan.rootSegment
        (2 * (r.nodes.length + plan.frontier.card) + 1) outer
        [(r.root, plan.rootSegment, false)] = .ok () ∧
      (plan.parentSegmentsUnchanged = true ↔
        r.oldRoot.bind g.cachedSegment = some plan.rootSegment) := by
  simp only [planReplacement, reject_guard_ok, except_bind_ok, not_not] at h
  obtain ⟨_, -, ⟨frontier, retainedNodes⟩, -, ⟨removedIds, found⟩, -, -, owner, -, validated, -, _, -,
    outer, houter, node, hnode, segment, hsegment, _, hscopes, heq⟩ := h
  cases heq
  refine ⟨outer, node, houter, rfl, ?_, hsegment, hscopes, by simp⟩
  unfold validatedRoot at hnode
  split at hnode
  · rename_i hlookup
    rw [hlookup, Except.ok.inj hnode]
  · cases hnode

def siteOf (plan : ReplacementPlan K) : Option ℕ := plan.parentLocation.map (·.parent)

def rootAfter (r : Replacement K) (plan : ReplacementPlan K) (g : MountedGraph K) : Option ℕ :=
  if plan.parentLocation.isSome then g.root else some r.root

variable (h : Shape g) (p : Planned r g plan)

include p in
theorem old_removed {old : ℕ} (hold : r.oldRoot = some old) : old ∈ plan.removedIds := by
  obtain ⟨met, walked, hmet⟩ := p.walked
  rcases walked.pending_met (a := old) (by simp [hold]) with hw | hm
  · exact hw
  · exact absurd hold (p.frontier old (by simpa [← hmet] using hm)).2

include p in
theorem under_old {x : ℕ} (hx : x ∈ plan.removedIds ∨ x ∈ plan.frontier) :
    ∃ old, r.oldRoot = some old ∧ (forest g).Below old x := by
  obtain ⟨met, walked, hmet⟩ := p.walked
  obtain ⟨old, hold, hbelow⟩ := walked.from_pending (a := x)
    (hx.imp_right fun hf => by simpa [← hmet] using hf)
  exact ⟨old, by simpa using hold, hbelow⟩

include h p in
/-- The parent of the target stands above all that goes or is kept. -/
theorem site_away {location : ParentLocation K} (hl : plan.parentLocation = some location) {x : ℕ}
    (hx : x ∈ plan.removedIds ∨ x ∈ plan.frontier) : x ≠ location.parent := by
  obtain ⟨old, hold, hbelow⟩ := under_old p hx
  rw [p.location, hold] at hl
  have hkid := h.linked.listed (p.target old hold) hl
  have hlt := weight_child h.weighed ⟨location, hkid⟩
  have hle := weight_below h.weighed hbelow
  rintro rfl
  omega

include h p in
theorem old_kid {location : ParentLocation K} (hl : plan.parentLocation = some location) :
    ∃ old, r.oldRoot = some old ∧ (old, location) ∈ (forest g).kids location.parent := by
  rw [p.location] at hl
  obtain ⟨old, hold, hparent⟩ := Option.bind_eq_some_iff.mp hl
  exact ⟨old, hold, h.linked.listed (p.target old hold) hparent⟩

include h p in
theorem removed_parent {c : ℕ} {l : ParentLocation K} (hc : c ∈ plan.removedIds ∨ c ∈ plan.frontier)
    (hl : (forest g).parent c = some l) :
    l.parent ∈ plan.removedIds ∨ r.oldRoot = some c ∧ plan.parentLocation = some l := by
  obtain ⟨met, walked, hmet⟩ := p.walked
  rcases walked.origin (a := c) (hc.imp_right fun hf => by simpa [← hmet] using hf) with
    hp | ⟨b, hb, m, hm⟩
  · have hold : r.oldRoot = some c := by simpa using hp
    exact .inr ⟨hold, by rw [p.location, hold]; exact hl⟩
  · obtain rfl := Option.some.inj ((h.linked.placed hm).2.symm.trans hl)
    exact .inl ((h.linked.owned hm).symm ▸ hb)

include h p in
theorem replacement_graft : Graft g plan.removedIds r.nodes plan.frontier
    [(r.root, plan.parentLocation)] (siteOf plan) (rootAfter r plan g) where
  fresh x hx := by
    obtain ⟨n, hn, rfl⟩ := List.mem_map.mp hx
    exact p.fresh n hn
  listed c hc := by
    rcases hc with hc | hc
    · exact p.fragment.listed c hc
    · obtain rfl : c = r.root := by simpa using hc
      exact p.fragment.root_listed
  placed c hc := (p.fragment.reached c hc).symm.imp_right fun heq => by simp [heq]
  below {c l} hc hl := by
    refine (removed_parent h p (.inl hc) hl).imp_right fun ⟨_, hlocation⟩ => ?_
    simp [siteOf, hlocation]
  kept c hc := by
    obtain ⟨met, walked, hmet⟩ := p.walked
    have hm : c ∈ met := by simpa [← hmet] using hc
    obtain ⟨hmounted, hne⟩ := p.frontier c hc
    refine ⟨hmounted, fun hgone => walked.walked_enters hgone hc, ?_⟩
    rcases walked.origin (.inr hm) with hp | ⟨b, hb, m, hkid⟩
    · exact absurd (by simpa using hp) hne
    · exact ⟨m, (h.linked.placed hkid).2, (h.linked.owned hkid).symm ▸ hb⟩
  all_kept {c l} hm hr hl ho := by
    obtain ⟨met, walked, hmet⟩ := p.walked
    rcases walked.closed ho ⟨l, h.linked.listed hm hl⟩ with hw | hmem
    · exact absurd hw hr
    · simpa [← hmet] using hmem
  site_kept q hq := by
    obtain ⟨location, hl, rfl⟩ := Option.map_eq_some_iff.mp hq
    obtain ⟨old, -, hkid⟩ := old_kid h p hl
    exact ⟨mounted_of_kid hkid, fun hr => site_away h p hl (.inl hr) rfl⟩
  site_apart q hq hf := by
    obtain ⟨location, hl, rfl⟩ := Option.map_eq_some_iff.mp hq
    exact site_away h p hl (.inr hf) rfl
  tops_site {c l} hc := by
    obtain ⟨-, hl⟩ := Prod.mk.inj (List.mem_singleton.mp hc)
    simp [siteOf, ← hl]
  tops_root {c} hc := by
    obtain ⟨rfl, hl⟩ := Prod.mk.inj (List.mem_singleton.mp hc)
    simp [rootAfter, ← hl]
  root_placed q hq := by
    cases hl : plan.parentLocation with
    | none =>
      obtain rfl : r.root = q := by simpa [rootAfter, hl] using hq
      exact .inl (by simp)
    | some location =>
      have hroot : g.root = some q := by simpa [rootAfter, hl] using hq
      refine .inr ⟨hroot, fun hgone => ?_⟩
      obtain ⟨hm, hp⟩ := h.linked.rooted q hroot
      obtain ⟨old, hold, hbelow⟩ := under_old p (.inl hgone)
      obtain ⟨old', hold', hkid⟩ := old_kid h p hl
      obtain rfl := Option.some.inj (hold.symm.trans hold')
      rcases Relation.ReflTransGen.cases_tail hbelow with rfl | ⟨b, -, m, hb⟩
      · simp [(h.linked.placed hkid).2] at hp
      · simp [(h.linked.placed hb).2] at hp
  root_kept q hq := by
    cases hl : plan.parentLocation with
    | some location => exact .inr (by simpa [rootAfter, hl] using hq)
    | none =>
      cases hold : r.oldRoot with
      | none => simp [p.first hold] at hq
      | some old =>
        rw [p.location, hold] at hl
        have hroot := h.linked.unparented (p.target old hold) hl
        obtain rfl := Option.some.inj (hroot.symm.trans hq)
        exact .inl (old_removed p hold)

end Planning

section Committing

variable {r : Replacement K} {g g0 t t' g' : MountedGraph K} {plan : ReplacementPlan K}

theorem place_unique {id c d : ℕ} {e : MountedNode K} {l : ParentLocation K}
    (orders : ∀ o, e.keyedChildren = some o → ∃ l, Represents o l) (hc : (c, l) ∈ locations id e)
    (hd : (d, l) ∈ locations id e) : c = d := by
  unfold locations at hc hd
  split at hc
  · rename_i o ho
    obtain ⟨items, hitems⟩ := orders o ho
    obtain ⟨k, i, rfl, hget⟩ := (mem_keyed hitems).mp hc
    rw [ho] at hd
    obtain ⟨k', i', heq, hget'⟩ := (mem_keyed hitems).mp hd
    cases heq
    exact (Prod.mk.inj (Option.some.inj (hget.symm.trans hget'))).1
  · rename_i ho
    obtain ⟨i, rfl, hget⟩ := mem_ordinary.mp hc
    rw [ho] at hd
    obtain ⟨j, heq, hget'⟩ := mem_ordinary.mp hd
    cases heq
    exact Option.some.inj (hget.symm.trans hget')

theorem orders_of_content (h : Shape g) {id : ℕ} {e : MountedNode K} {o : KeyedChildOrder K}
    (hcontent : content t id = content g id) (he : t.nodes.get id = some e)
    (ho : e.keyedChildren = some o) : ∃ l, Represents o l := by
  rw [GraphMounting.content, he] at hcontent
  obtain ⟨e', he', heq⟩ := Option.map_eq_some_iff.mp hcontent.symm
  exact h.orders he' ((Prod.mk.inj heq).2.trans ho)

omit [DecidableEq K] in
theorem alter_placed {message : String} {id : ℕ} {f : MountedNode K → MountedNode K} {u : Unit}
    {location : Option (ParentLocation K)} (hrun : (alter message id f).run t = .ok u t')
    (content : ∀ e, (f e).node = e.node ∧ (f e).keyedChildren = e.keyedChildren)
    (size : ∀ e, (f e).subtreeSize = e.subtreeSize) (parent : ∀ e, (f e).parent = location) :
    SameContent t t' ∧ t'.subtreeSize = t.subtreeSize ∧
      t'.parentLocation = Function.update t.parentLocation id location := by
  obtain ⟨e, he, rfl⟩ := alter_run_ok.mp hrun
  change SameContent t (put t id (f e)) ∧ (put t id (f e)).subtreeSize = _ ∧
    (put t id (f e)).parentLocation = _
  refine ⟨sameContent_put he _ (content e).1 (content e).2, ?_, ?_⟩
  · rw [size_put, size, ← size_eq he, Function.update_eq_self]
  · rw [location_put, parent]

theorem exchange_ok (p : Planned r g plan) (same : outline g = outline g0) {oldSize : ℕ}
    {ended : List ℕ} (hrun : (exchange r plan oldSize).run g0 = .ok ended g') : ∃ t newSize u,
      Spliced g t plan.removedIds r.nodes [(r.root, plan.parentLocation)] ∧
      t.subtreeSize r.root = some newSize ∧
      (attach r plan oldSize newSize).run t = .ok u g' := by
  simp only [exchange, bind_ok, query_run_ok, pure_ok] at hrun
  obtain ⟨instances, t0, hretire, _, t1, hinsert, _, t2, hparent, _, t3, hsegment, newSize, _,
    ⟨hsize, rfl⟩, _, t4, hattach, -, rfl⟩ := hrun
  have retired := spliced_outline (spliced_retired (retire_all hretire)) same
  have inserted := insert_nodes p.fragment hinsert
  obtain ⟨content, sizes, parents⟩ := alter_placed hparent (fun _ => ⟨rfl, rfl⟩) (fun _ => rfl)
    fun _ => rfl
  have segment : outline t3 = outline t2 :=
    kept_of_preserves (fun c => preserves_setSegment _ _) hsegment
  simp only [outline, Outline.mk.injEq] at segment
  obtain ⟨hcontent, hsizes, hparents, hroot, hissued⟩ := segment
  have spliced := spliced_insert retired p.fragment (by simp [ids, childIds]) inserted
    (content.trans ⟨hcontent, hroot, hissued⟩) (hsizes.trans sizes) (hparents.trans parents)
  refine ⟨t3, newSize, _, spliced, ?_, hattach⟩
  cases hs : t3.subtreeSize r.root with
  | none => simp [mountedSize, hs] at hsize
  | some size => simpa [mountedSize, hs] using hsize

variable (h : Shape g) (p : Planned r g plan)
  (s : Spliced g t plan.removedIds r.nodes [(r.root, plan.parentLocation)])
  {location : ParentLocation K} (hl : plan.parentLocation = some location)

include h p s hl

theorem site_content : content t location.parent = content g location.parent := by
  obtain ⟨old, -, hkid⟩ := old_kid h p hl
  have hid : location.parent ∉ ids r.nodes := fun hc => by
    obtain ⟨n, hn, heq⟩ := List.mem_map.mp hc
    have := h.issued (mounted_iff.mp (mounted_of_kid hkid))
    have := p.fresh n hn
    omega
  rw [s.content _ hid, if_neg fun hr => site_away h p hl (.inl hr) rfl]

theorem replacement_sited (attached : Attached t t' location.parent location r.root) :
    Sited g t t' plan.removedIds [(r.root, plan.parentLocation)] (siteOf plan) := by
  have hsite : siteOf plan = some location.parent := by rw [siteOf, hl, Option.map_some]
  obtain ⟨old, hold, hkid⟩ := old_kid h p hl
  have hkids : (forest t).kids location.parent = (forest g).kids location.parent :=
    kids_of_places (places_of_content (site_content h p s hl))
  refine ⟨fun x hx => attached.content x fun heq => hx (by rw [hsite, heq]), attached.kinds,
    attached.filed, attached.parents, attached.issued, fun {q e o} hq he ho => ?_, fun {q} hq c l => ?_, fun q hq => ?_⟩
  · obtain rfl := Option.some.inj (hsite.symm.trans hq)
    exact attached.order he ho
  · obtain rfl := Option.some.inj (hsite.symm.trans hq)
    rw [attached.kids, hkids, hl]
    refine or_congr (by simp) (and_congr_right fun hc => not_congr ?_)
    -- among the children of the parent only the target goes
    constructor
    · rintro rfl
      obtain ⟨e, he⟩ := Option.isSome_iff_exists.mp (mounted_iff.mp (mounted_of_kid hkid))
      rw [kids_eq he] at hc hkid
      rw [place_unique (fun o ho => h.orders he ho) hc hkid]
      exact old_removed p hold
    · intro hr
      obtain ⟨-, hp⟩ := h.linked.placed hc
      rcases removed_parent h p (.inl hr) hp with ho | ⟨-, hlocation⟩
      · exact absurd (h.linked.owned hc) (site_away h p hl (.inl ho))
      · exact Option.some.inj (hlocation.symm.trans hl)
  · obtain rfl := Option.some.inj (hsite.symm.trans hq)
    exact attached.mounted

omit s in
theorem replacement_total {old : ℕ} (hold : r.oldRoot = some old) :
    (forest g).total (((forest g).kids location.parent).filter
      fun c => decide (c.1 ∈ plan.removedIds)) = (forest g).weight old := by
  obtain ⟨old', hold', hkid⟩ := old_kid h p hl
  obtain rfl := Option.some.inj (hold.symm.trans hold')
  have hperm : (((forest g).kids location.parent).filter
      fun c => decide (c.1 ∈ plan.removedIds)).Perm [(old, location)] := by
    refine (List.perm_ext_iff_of_nodup ((h.linked.distinct _).filter _)
      (List.nodup_singleton _)).mpr fun ⟨c, l⟩ => ?_
    rw [List.mem_filter, List.mem_singleton, decide_eq_true_eq]
    constructor
    · rintro ⟨hc, hr⟩
      obtain ⟨-, hp⟩ := h.linked.placed hc
      rcases removed_parent h p (.inl hr) hp with ho | ⟨hold'', hlocation⟩
      · exact absurd (h.linked.owned hc) (site_away h p hl (.inl ho))
      · rw [Option.some.inj (hold.symm.trans hold''), Option.some.inj (hl.symm.trans hlocation)]
    · rintro heq
      obtain ⟨rfl, rfl⟩ := Prod.mk.inj heq
      exact ⟨hkid, old_removed p hold⟩
  rw [Forest.total, (hperm.map _).sum_eq]
  simp

omit hl
variable {u : Unit} {newSize : ℕ} (hsize : t.subtreeSize r.root = some newSize)

include hsize

theorem attach_grafted {oldSize : ℕ} (hold : ∀ old ∈ r.oldRoot, (forest g).weight old = oldSize)
    (hrun : (attach r plan oldSize newSize).run t = .ok u g') :
    Grafted g g' plan.removedIds r.nodes plan.frontier [(r.root, plan.parentLocation)]
      (siteOf plan) (rootAfter r plan g) := by
  have gr := replacement_graft h p
  have weight : (forest t).weight r.root = newSize := by
    change (t.subtreeSize r.root).getD 0 = newSize
    rw [hsize, Option.getD_some]
  cases hl : plan.parentLocation with
  | none =>
    rw [← hl]
    have hnone : siteOf plan = none := by rw [siteOf, hl, Option.map_none]
    rw [attach, hl] at hrun
    obtain rfl := modify_ok.mp hrun
    have st : Sited g t t plan.removedIds [(r.root, plan.parentLocation)] (siteOf plan) := by
      refine ⟨fun _ _ => rfl, fun _ => rfl, fun _ c hc => ⟨c, hc, refiled_self c⟩, rfl, rfl, ?_, ?_, ?_⟩ <;>
        simp [hnone]
    refine ⟨gr, ⟨t, t, s, st, rfl, rfl, rfl⟩, ?_, settled_weighed h s gr st rfl rfl ?_⟩
    · simp [rootAfter, hl]
    · rw [hnone]
      rfl
  | some location =>
    rw [← hl]
    have hsite : siteOf plan = some location.parent := by rw [siteOf, hl, Option.map_some]
    obtain ⟨old, hold', hkid⟩ := old_kid h p hl
    have hcontent := site_content h p s hl
    have hkids : (forest t).kids location.parent = (forest g).kids location.parent :=
      kids_of_places (places_of_content hcontent)
    rw [attach, hl] at hrun
    simp only [bind_ok] at hrun
    obtain ⟨_, t1, hattach, hrest⟩ := hrun
    have attached := attach_root (fun he ho => orders_of_content h hcontent he ho) (hkids ▸ hkid) hattach
    obtain ⟨t2, same, hresize⟩ : ∃ t2, outline t2 = outline t1 ∧
        (resizeAncestors oldSize newSize (some location.parent)).run t2 = .ok u g' := by
      split at hrest
      · obtain ⟨_, t2, hrefresh, hresize⟩ := bind_ok.mp hrest
        exact ⟨t2, kept_of_preserves (fun c => preserves_refresh _) hrefresh, hresize⟩
      · exact ⟨t1, rfl, hrest⟩
    simp only [outline, Outline.mk.injEq] at same
    obtain ⟨same_content, same_sizes, same_parents, same_root, same_issued⟩ := same
    obtain ⟨along, up, resized⟩ := resize_ancestors hresize
    have st := replacement_sited h p s hl attached
    have content_v := resized.same.content.trans same_content
    have parents_v := resized.parents.trans same_parents
    refine ⟨gr, ⟨t, t1, s, st, content_v, parents_v, resized.same.issued.trans same_issued⟩, ?_,
      settled_weighed h s gr st content_v parents_v ?_⟩
    · rw [resized.same.root, same_root, attached.root, s.root, rootAfter, hl]
      rfl
    · rw [hsite]
      refine ⟨by simp [placedTops, hl], along, same_parents ▸ up, ?_⟩
      have start : (sizedBy t t1).weight = (forest t2).weight := by
        change (fun x => (t.subtreeSize x).getD 0) = fun x => (t2.subtreeSize x).getD 0
        rw [same_sizes, attached.sizes]
      rw [← resized.weights _ start, replacement_total h p hl hold', hold old hold']
      simp [placedTops, Forest.total, weight, hl]

omit h p s hsize

theorem replacement_grafted (h : Shape g) {a : GraphApply K}
    (hrun : (applyReplacement r).run g = .ok a g') : ∃ plan, planReplacement r g = .ok plan ∧
      Grafted g g' plan.removedIds r.nodes plan.frontier [(r.root, plan.parentLocation)]
        (siteOf plan) (rootAfter r plan g) := by
  simp only [applyReplacement, commitReplacement, bind_ok, get_ok, query_run_ok, pure_ok] at hrun
  obtain ⟨_, _, ⟨rfl, rfl⟩, plan, _, ⟨hplan, rfl⟩, _, _, ⟨rfl, rfl⟩, carried, g0, hcarry, ended, g1,
    hexchange, _, g2, hfinish, _, _, ⟨rfl, rfl⟩, -, rfl⟩ := hrun
  have p := planned h hplan
  have carry : outline g = outline g0 := (outline_of_withoutInteraction
    (kept_of_preserves (fun c => preserves_carry _) hcarry)).symm
  obtain ⟨t, newSize, u, s, hsize, hattach⟩ := exchange_ok p carry hexchange
  have grafted := attach_grafted h p s hsize (fun old hold => ?_) hattach
  · exact ⟨plan, hplan, grafted.outline (outline_of_withoutInteraction
      (kept_of_preserves (fun c => preserves_finish _ _ _) hfinish))⟩
  · rw [Option.mem_def.mp hold]
    rfl

theorem replacement_kids (h : Shape g) {a : GraphApply K} (hplan : planReplacement r g = .ok plan)
    (hrun : (applyReplacement r).run g = .ok a g') {location : ParentLocation K}
    (hl : plan.parentLocation = some location) : (forest g').kids location.parent =
      ((forest g).kids location.parent).map (rehang location r.root) := by
  simp only [applyReplacement, commitReplacement, bind_ok, get_ok, query_run_ok, pure_ok] at hrun
  obtain ⟨_, _, ⟨rfl, rfl⟩, plan', _, ⟨hplan', rfl⟩, _, _, ⟨rfl, rfl⟩, carried, g0, hcarry, ended, g1,
    hexchange, _, g2, hfinish, _, _, ⟨rfl, rfl⟩, -, rfl⟩ := hrun
  obtain rfl := Except.ok.inj (hplan.symm.trans hplan')
  have p := planned h hplan
  have carry : outline g = outline g0 := (outline_of_withoutInteraction
    (kept_of_preserves (fun c => preserves_carry _) hcarry)).symm
  have finish : outline g2 = outline g1 := outline_of_withoutInteraction
    (kept_of_preserves (fun c => preserves_finish _ _ _) hfinish)
  obtain ⟨t, newSize, u, s, hsize, hattach⟩ := exchange_ok p carry hexchange
  obtain ⟨old, hold, hkid⟩ := old_kid h p hl
  have hcontent := site_content h p s hl
  have hkids : (forest t).kids location.parent = (forest g).kids location.parent :=
    kids_of_places (places_of_content hcontent)
  rw [attach, hl] at hattach
  simp only [bind_ok] at hattach
  obtain ⟨_, t1, hroot, hrest⟩ := hattach
  have after := attach_kids (fun {e o} he ho => orders_of_content h hcontent he ho) (hkids ▸ hkid) hroot
  obtain ⟨t2, same, hresize⟩ : ∃ t2, outline t2 = outline t1 ∧
      (resizeAncestors ((r.oldRoot.bind g.subtreeSize).getD 0) newSize
        (some location.parent)).run t2 = .ok u g1 := by
    split at hrest
    · obtain ⟨_, t2, hrefresh, hresize⟩ := bind_ok.mp hrest
      exact ⟨t2, kept_of_preserves (fun c => preserves_refresh _) hrefresh, hresize⟩
    · exact ⟨t1, rfl, hrest⟩
  obtain ⟨along, -, resized⟩ := resize_ancestors hresize
  have content_v : GraphMounting.content g2 = GraphMounting.content t1 :=
    (congrArg Outline.content finish).trans (resized.same.content.trans (congrArg Outline.content same))
  rw [kids_of_places (places_of_content (congrFun content_v location.parent)), after, hkids]

end Committing

end GraphReplacements
