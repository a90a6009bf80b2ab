import RocGui.IdentityPaths

/-! What lies inside a mounted node: the walk of the code, the paths of the nodes inside,
and what an edit of the graph leaves inside. -/
namespace DialogRegions

open FiniteMaps Methods KeyedOrder GraphState FragmentValidation GraphPatches FragmentTrees
open GraphForests GraphMounting GraphGrafts GraphLedgers GraphListings KeyedListings
open SiblingSegments GraphIdentities ElementIdentities IdentityPaths PointerTrees

variable {K : Type} [DecidableEq K]

section Walk

variable {g : MountedGraph K} {d x y : ℕ} {l : ParentLocation K}

theorem below_parent (h : Shape g) (hp : g.parentLocation x = some l) (hne : x ≠ d) :
    (forest g).Below d x ↔ (forest g).Below d l.parent := by
  have hkid := h.linked.listed (mounted_iff.mpr (mounted_of_parent hp)) hp
  constructor
  · intro hbelow
    rcases Relation.ReflTransGen.cases_tail hbelow with rfl | ⟨p, hdp, hpx⟩
    · exact absurd rfl hne
    · rwa [child_unique h.linked hpx ⟨l, hkid⟩] at hdp
  · exact fun hbelow => hbelow.tail ⟨l, hkid⟩

theorem below_top (h : Shape g) (hp : g.parentLocation x = none) (hbelow : (forest g).Below d x) :
    x = d := by
  rcases Relation.ReflTransGen.cases_tail hbelow with heq | ⟨p, -, l, hkid⟩
  · exact heq
  · cases hp.symm.trans (h.linked.placed hkid).2

theorem descendant_from {ε : Type} {fuel : ℕ} {b : Bool} (h : Shape g)
    (hrun : g.descendantFrom d fuel x = (.ok b : Except (Failure ε) Bool)) :
    b = true ↔ (forest g).Below d x := by
  induction fuel generalizing x with
  | zero => cases hrun
  | succ fuel ih =>
    rw [MountedGraph.descendantFrom] at hrun
    split at hrun
    · rename_i heq
      subst heq
      obtain rfl := Except.ok.inj hrun
      exact iff_of_true rfl .refl
    · rename_i hne
      cases hp : g.parentLocation x with
      | none =>
        rw [hp, Option.map_none] at hrun
        obtain rfl := Except.ok.inj hrun
        exact iff_of_false Bool.false_ne_true fun hbelow => hne (below_top h hp hbelow)
      | some l =>
        rw [hp, Option.map_some] at hrun
        rw [below_parent h hp hne]
        exact ih hrun

omit [DecidableEq K] in
theorem descendant_fuel {ε : Type} {fuel : ℕ} {qs : List ℕ}
    (up : UpTo ParentLocation.parent g.parentLocation (some x) qs) (enough : qs.length ≤ fuel) :
    ∃ b, g.descendantFrom d fuel x = (.ok b : Except (Failure ε) Bool) := by
  generalize hcur : some x = cur at up
  induction up generalizing x fuel with
  | top => cases hcur
  | @up q qs rest ih =>
    obtain rfl := Option.some.inj hcur
    rw [List.length_cons] at enough
    obtain ⟨fuel, rfl⟩ : ∃ n, fuel = n + 1 := ⟨fuel - 1, by omega⟩
    rw [MountedGraph.descendantFrom]
    by_cases hx : x = d
    · exact ⟨true, if_pos hx⟩
    · rw [if_neg hx]
      cases hp : g.parentLocation x with
      | none => exact ⟨false, rfl⟩
      | some l => exact ih (by omega) (by rw [hp, Option.map_some])

theorem descendant_total {ε : Type} (h : Shape g) (x d : ℕ) :
    ∃ b, g.isDescendantOf x d = (.ok b : Except (Failure ε) Bool) := by
  by_cases hm : (forest g).Mounted x
  · obtain ⟨qs, up⟩ := way_up h.linked h.weighed (finite_mounted g) hm
    have hlength := way_length h.linked h.weighed up hm (s := g.nodes.keys)
      fun q hq => FiniteMap.mem_keys.mpr (mounted_iff.mp hq)
    exact descendant_fuel up (hlength.trans (Nat.le_succ _))
  · have hp : g.parentLocation x = none := by
      rw [mounted_iff, Option.not_isSome_iff_eq_none] at hm
      rw [MountedGraph.parentLocation, hm]
      rfl
    rw [MountedGraph.isDescendantOf, MountedGraph.climb, MountedGraph.descendantFrom, hp]
    by_cases hx : x = d
    · exact ⟨true, if_pos hx⟩
    · exact ⟨false, if_neg hx⟩

theorem descendant_iff {ε : Type} {b : Bool} (h : Shape g)
    (hrun : g.isDescendantOf x d = (.ok b : Except (Failure ε) Bool)) :
    b = true ↔ (forest g).Below d x := descendant_from h hrun

theorem inside_iff {ε : Type} (h : Shape g) :
    g.isDescendantOf x d = (.ok true : Except (Failure ε) Bool) ↔ (forest g).Below d x := by
  constructor
  · exact fun hrun => (descendant_iff h hrun).mp rfl
  · intro hbelow
    obtain ⟨b, hb⟩ := descendant_total (ε := ε) h x d
    rw [hb, (descendant_iff h hb).mpr hbelow]

end Walk

section Paths

variable {g v : MountedGraph K} {d x : ℕ} {s : IdentitySegment} {path : ElementIdentity}

theorem key_on_path (h : Shape g) (hpath : PathTo g x path) (hbelow : (forest g).Below d x)
    (hs : g.cachedSegment d = some s) : s ∈ path := by
  induction hpath with
  | top hp hkey =>
    rw [below_top h hp hbelow, hs, Option.some.injEq] at hkey
    exact List.mem_singleton.mpr hkey
  | @under x key l path hp _ hkey ih =>
    by_cases hne : x = d
    · rw [hne, hs, Option.some.injEq] at hkey
      exact List.mem_append_right _ (List.mem_singleton.mpr hkey)
    · exact List.mem_append_left _ (ih ((below_parent h hp hne).mp hbelow))

theorem node_on_path (h : Shape g) (hpath : PathTo g x path) (hs : s ∈ path) :
    ∃ y, (forest g).Below y x ∧ g.cachedSegment y = some s := by
  induction hpath with
  | @top x key hp hkey => exact ⟨x, .refl, by rw [List.mem_singleton.mp hs, hkey]⟩
  | @under x key l path hp _ hkey ih =>
    rcases List.mem_append.mp hs with hs | hs
    · obtain ⟨y, hbelow, hy⟩ := ih hs
      have hkid := h.linked.listed (mounted_iff.mpr (mounted_of_parent hp)) hp
      exact ⟨y, hbelow.tail ⟨l, hkid⟩, hy⟩
    · exact ⟨x, .refl, by rw [List.mem_singleton.mp hs, hkey]⟩

omit [DecidableEq K] in
theorem dialog_of_key {n m : Node K} {label : String} {i j a b : ℕ} (hn : n.kind = .dialog label)
    (h : IdentitySegment.of n i a = .of m j b) : ∃ label, m.kind = .dialog label := by
  have htag : m.kind.tag = 6 := by
    unfold IdentitySegment.of at h
    simp only [hn, NodeKind.tag] at h
    split at h <;> split at h
    · cases h
    · split at h
      · exact (IdentitySegment.named.inj h).1.symm
      · cases h
    · cases h
    · split at h
      · cases h
      · exact (IdentitySegment.positional.inj h).1.symm
  cases hm : m.kind with
  | dialog label => exact ⟨label, rfl⟩
  | _ => simp [hm, NodeKind.tag] at htag

theorem inside_by_path {y : ℕ} (h : Shape g) (h' : Shape v) (exact : ExactIndices g)
    (exact' : ExactIndices v) (own : ∀ x, OwnKey g x) (own' : ∀ x, OwnKey v x)
    (hd : g.dialog = some d) (hd' : v.dialog = some d) (hx : PathTo g x path)
    (hy : PathTo v y path) (hbelow : (forest g).Below d x) : (forest v).Below d y := by
  obtain ⟨label, hkind⟩ := (exact.dialog d).mp hd
  obtain ⟨n, hn, hnk⟩ := Option.map_eq_some_iff.mp hkind
  obtain ⟨e, he⟩ := Option.map_eq_some_iff.mp hn
  have hkey := GraphSegments.segment_eq he.1
  obtain ⟨i, a, hi⟩ := own d n _ hn hkey
  obtain ⟨z, hz, hzs⟩ := node_on_path h' hy (key_on_path h hx hbelow hkey)
  have hm : (v.node z).isSome := by
    rw [MountedGraph.node, Option.isSome_map, ← Option.isSome_map (f := (·.segment))]
    exact Option.isSome_of_eq_some hzs
  obtain ⟨m, hm⟩ := Option.isSome_iff_exists.mp hm
  obtain ⟨j, b, hj⟩ := own' z m _ hm hzs
  obtain ⟨label', hmk⟩ := dialog_of_key hnk (hi.symm.trans hj)
  have hzd : v.dialog = some z := (exact'.dialog z).mpr ⟨label', by rw [kindAt, hm, Option.map_some, hmk]⟩
  rwa [← Option.some.inj (hzd.symm.trans hd')]

end Paths

section Edits

variable {g v : MountedGraph K} {removed : List ℕ} {nodes : List (Node K)} {frontier : Finset ℕ}
  {tops : List (ℕ × Option (ParentLocation K))} {site root : Option ℕ}
  (e : Grafted g v removed nodes frontier tops site root) (h : Shape g)
  (placed : ∀ q ∈ site, ∀ c, (c, none) ∉ tops)

include e h placed

theorem below_site {q c : ℕ} (hq : q ∈ site) (hc : c ∈ ids nodes ∨ c ∈ frontier) :
    (forest v).Below q c := by
  have shape := e.shape h
  have hm : (forest v).Mounted c := (e.mounted h c).mpr <|
    hc.symm.imp (fun hf => ⟨(e.graft.kept c hf).1, (e.graft.kept c hf).2.1⟩) id
  obtain ⟨r, hr, hbelow⟩ := reached shape.linked shape.weighed (finite_mounted v) hm
  -- along the way down from the root
  induction hbelow with
  | refl =>
    have hroot : v.parentLocation r = none := (shape.linked.rooted r hr).2
    rcases e.graft.placed r hc with hchild | htop
    · obtain ⟨n, hn, hmem⟩ := mem_childIds.mp hchild
      obtain ⟨l, hl, -⟩ := e.parent_fresh h hn hmem
      cases hroot.symm.trans hl
    · obtain ⟨⟨r, l⟩, hmem, rfl⟩ := List.mem_map.mp htop
      have hl := e.parent_top hmem
      obtain rfl : none = l := hroot.symm.trans hl
      exact absurd hmem (placed q hq r)
  | @tail p c _ hpc ih =>
    obtain ⟨l, hkid⟩ := hpc
    have hl := (shape.linked.placed hkid).2
    have howner := shape.linked.owned hkid
    rcases e.graft.placed c hc with hchild | htop
    · obtain ⟨n, hn, hmem⟩ := mem_childIds.mp hchild
      obtain ⟨l', hl', hnid⟩ := e.parent_fresh h hn hmem
      obtain rfl := Option.some.inj (hl.symm.trans hl')
      have hp : p ∈ ids nodes := by
        rw [← howner, hnid]
        exact List.mem_map_of_mem hn
      exact (ih (.inl hp) (mounted_of_kid hkid)).tail ⟨l, hkid⟩
    · obtain ⟨⟨c, place⟩, hmem, rfl⟩ := List.mem_map.mp htop
      obtain rfl : some l = place := hl.symm.trans (e.parent_top hmem)
      obtain rfl : q = l.parent := Option.some.inj (hq.symm.trans (e.graft.tops_site hmem))
      exact .single ⟨l, howner ▸ hkid⟩

theorem below_kept {d x : ℕ} (hd : d ∉ removed) (hbelow : (forest g).Below d x) :
    (x ∉ removed → (forest v).Below d x) ∧ (x ∈ removed → ∃ q ∈ site, (forest v).Below d q) := by
  have shape := e.shape h
  induction hbelow with
  | refl => exact ⟨fun _ => .refl, fun hr => absurd hr hd⟩
  | @tail p c _ hpc ih =>
    obtain ⟨l, hkid⟩ := hpc
    obtain ⟨hm, hl⟩ := h.linked.placed hkid
    have howner := h.linked.owned hkid
    refine ⟨fun hr => ?_, fun hr => ?_⟩
    · by_cases hp : p ∈ removed
      · obtain ⟨q, hq, hdq⟩ := ih.2 hp
        have hf := e.graft.all_kept hm hr hl (howner ▸ hp)
        exact hdq.trans (below_site e h placed hq (.inr hf))
      · have hf : c ∉ frontier := fun hf => by
          obtain ⟨-, -, l', hl', hgone⟩ := e.graft.kept c hf
          obtain rfl := Option.some.inj (hl.symm.trans hl')
          exact hp (howner ▸ hgone)
        have hl' : v.parentLocation c = some l := (e.parent_kept h hm hr hf).trans hl
        have hkid' := shape.linked.listed (mounted_iff.mpr (mounted_of_parent hl')) hl'
        exact (ih.1 hp).tail ⟨l, howner ▸ hkid'⟩
    · rcases e.graft.below hr hl with hgone | hsite
      · exact ih.2 (howner ▸ hgone)
      · have hp := (e.graft.site_kept _ hsite).2
        rw [howner] at hsite hp
        exact ⟨p, hsite, ih.1 hp⟩

end Edits

end DialogRegions
