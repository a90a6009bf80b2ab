import RocGui.GraphPatches

/-! The sibling keys of a list of children: what they depend on, and that one child can
take the place of another of the same key. -/
namespace SiblingSegments

open FiniteMaps Methods KeyedOrder GraphState FragmentValidation GraphPatches

variable {K : Type}

theorem of_boundary {n : Node K} {i : ℕ} (h : n.kind = .boundary i) (index occurrence : ℕ) :
    IdentitySegment.of n index occurrence = .boundary i := by
  simp [IdentitySegment.of, h]

theorem of_congr {n m : Node K} (h : n.kind = m.kind) (index occurrence : ℕ) :
    IdentitySegment.of n index occurrence = .of m index occurrence := by
  simp only [IdentitySegment.of, h]

theorem of_boundary_iff {n : Node K} {i index occurrence : ℕ} :
    IdentitySegment.of n index occurrence = .boundary i ↔ n.kind = .boundary i := by
  constructor
  · intro h
    unfold IdentitySegment.of at h
    split at h
    · rename_i j hj
      rw [IdentitySegment.boundary.inj h] at hj
      exact hj
    · split at h <;> cases h
  · exact fun h => of_boundary h _ _

theorem meet_of_same {n m : Node K} {index a : ℕ} (seen : Occurrences)
    (h : IdentitySegment.of n index (seen.meet n.kind).1 = .of m index a) :
    (seen.meet n.kind).2 = (seen.meet m.kind).2 := by
  unfold IdentitySegment.of at h
  split at h
  · rename_i i hn
    split at h
    · rename_i j hm
      simp [hn, hm, Occurrences.meet, NodeKind.siblingName]
    · split at h <;> cases h
  · split at h
    · rename_i name hn
      split at h
      · cases h
      · split at h
        · rename_i name' hm
          injection h with htag hname _
          subst hname
          simp [Occurrences.meet, hn, hm, htag]
        · cases h
    · rename_i hn
      split at h
      · cases h
      · split at h
        · cases h
        · rename_i hm
          simp [Occurrences.meet, hn, hm]

section Walk

variable {lookup lookup' : ℕ → Option (Node K)} {children before after : List ℕ}

theorem segments_cons {c : ℕ} {n : Node K} (h : lookup c = some n) (seen : Occurrences) (index : ℕ) :
    siblingSegments lookup seen index (c :: children) =
      (c, .of n index (seen.meet n.kind).1) ::
        siblingSegments lookup (seen.meet n.kind).2 (index + 1) children := by
  rw [siblingSegments, h]

variable (lookup) in
theorem segments_sublist (seen : Occurrences) (index : ℕ) :
    ((siblingSegments lookup seen index children).map Prod.fst).Sublist children := by
  induction children generalizing seen index with
  | nil => exact List.Sublist.refl []
  | cons c rest ih =>
    cases hc : lookup c with
    | none =>
      rw [siblingSegments, hc]
      exact (ih seen (index + 1)).cons c
    | some n =>
      rw [segments_cons hc]
      exact (ih _ (index + 1)).cons_cons c

theorem mem_children {c : ℕ} {s : IdentitySegment} {seen : Occurrences} {index : ℕ}
    (h : (c, s) ∈ siblingSegments lookup seen index children) : c ∈ children :=
  (segments_sublist lookup seen index).subset (List.mem_map_of_mem h)

variable (lookup) in
theorem segment_exists {c : ℕ} (hc : c ∈ children) (known : (lookup c).isSome) (seen : Occurrences)
    (index : ℕ) : ∃ s, (c, s) ∈ siblingSegments lookup seen index children := by
  induction children generalizing seen index with
  | nil => cases hc
  | cons d rest ih =>
    rcases List.mem_cons.mp hc with rfl | hc
    · obtain ⟨n, hn⟩ := Option.isSome_iff_exists.mp known
      rw [segments_cons hn]
      exact ⟨_, List.mem_cons_self⟩
    · cases hd : lookup d with
      | none =>
        rw [siblingSegments, hd]
        exact ih hc seen (index + 1)
      | some n =>
        rw [segments_cons hd]
        obtain ⟨s, hs⟩ := ih hc (seen.meet n.kind).2 (index + 1)
        exact ⟨s, List.mem_cons_of_mem _ hs⟩

theorem segments_congr (same : ∀ c ∈ children, (lookup' c).map (·.kind) = (lookup c).map (·.kind))
    (seen : Occurrences) (index : ℕ) : siblingSegments lookup' seen index children =
      siblingSegments lookup seen index children := by
  induction children generalizing seen index with
  | nil => rfl
  | cons c rest ih =>
    have hc := same c List.mem_cons_self
    have hrest := ih fun d hd => same d (List.mem_cons_of_mem _ hd)
    cases hl : lookup c with
    | none =>
      rw [hl, Option.map_none, Option.map_eq_none_iff] at hc
      rw [siblingSegments, siblingSegments, hl, hc]
      exact hrest seen (index + 1)
    | some n =>
      rw [hl, Option.map_some, Option.map_eq_some_iff] at hc
      obtain ⟨m, hm, hkind⟩ := hc
      rw [segments_cons hl, segments_cons hm, hkind, of_congr hkind, hrest]

theorem segment_boundary {c i : ℕ} {s : IdentitySegment} {n : Node K} {seen : Occurrences}
    {index : ℕ} (hn : lookup c = some n) (hk : n.kind = .boundary i)
    (h : (c, s) ∈ siblingSegments lookup seen index children) : s = .boundary i := by
  induction children generalizing seen index with
  | nil => cases h
  | cons d rest ih =>
    cases hd : lookup d with
    | none =>
      rw [siblingSegments, hd] at h
      exact ih h
    | some m =>
      rw [segments_cons hd] at h
      rcases List.mem_cons.mp h with heq | h
      · obtain ⟨rfl, rfl⟩ := Prod.mk.inj heq
        obtain rfl := Option.some.inj (hn.symm.trans hd)
        exact of_boundary hk _ _
      · exact ih h

theorem boundary_of_segment {c i : ℕ} {seen : Occurrences} {index : ℕ}
    (h : (c, .boundary i) ∈ siblingSegments lookup seen index children) :
    (lookup c).map (·.kind) = some (.boundary i) := by
  induction children generalizing seen index with
  | nil => cases h
  | cons d rest ih =>
    cases hd : lookup d with
    | none =>
      rw [siblingSegments, hd] at h
      exact ih h
    | some m =>
      rw [segments_cons hd] at h
      rcases List.mem_cons.mp h with heq | h
      · obtain ⟨rfl, hs⟩ := Prod.mk.inj heq
        rw [hd, Option.map_some, of_boundary_iff.mp hs.symm]
      · exact ih h

def meetAll (lookup : ℕ → Option (Node K)) : Occurrences → List ℕ → Occurrences
  | seen, [] => seen
  | seen, child :: rest =>
    match lookup child with
    | none => meetAll lookup seen rest
    | some node => meetAll lookup (seen.meet node.kind).2 rest

variable (lookup lookup') in
theorem meet_all_congr (same : ∀ c ∈ children, (lookup' c).map (·.kind) = (lookup c).map (·.kind))
    (seen : Occurrences) : meetAll lookup' seen children = meetAll lookup seen children := by
  induction children generalizing seen with
  | nil => rfl
  | cons c rest ih =>
    have hc := same c List.mem_cons_self
    have hrest := ih fun d hd => same d (List.mem_cons_of_mem _ hd)
    cases hl : lookup c with
    | none =>
      rw [hl, Option.map_none, Option.map_eq_none_iff] at hc
      rw [meetAll, meetAll, hl, hc]
      exact hrest seen
    | some n =>
      rw [hl, Option.map_some, Option.map_eq_some_iff] at hc
      obtain ⟨m, hm, hkind⟩ := hc
      rw [meetAll, meetAll, hl, hm]
      dsimp only
      rw [hkind, hrest]

theorem segments_append (seen : Occurrences) (index : ℕ) :
    siblingSegments lookup seen index (before ++ after) = siblingSegments lookup seen index before ++
      siblingSegments lookup (meetAll lookup seen before) (index + before.length) after := by
  induction before generalizing seen index with
  | nil => rfl
  | cons c rest ih =>
    have hlen : index + 1 + rest.length = index + (c :: rest).length := by
      rw [List.length_cons]
      omega
    cases hc : lookup c with
    | none =>
      rw [List.cons_append, siblingSegments, siblingSegments, meetAll, hc, ← hlen]
      exact ih seen (index + 1)
    | some n =>
      rw [List.cons_append, segments_cons hc, segments_cons hc, meetAll, hc, ih, hlen,
        List.cons_append]

/-- One child in the place of another of the same key leaves the keys of its siblings. -/
theorem segments_swap {new : ℕ} {n m : Node K} (hm : lookup' new = some m)
    (same : ∀ c ∈ before ++ after, (lookup' c).map (·.kind) = (lookup c).map (·.kind))
    (key : IdentitySegment.of n before.length ((meetAll lookup ∅ before).meet n.kind).1 =
      .of m before.length ((meetAll lookup ∅ before).meet m.kind).1) :
    siblingSegments lookup' ∅ 0 (before ++ new :: after) = siblingSegments lookup ∅ 0 before ++
      (new, .of n before.length ((meetAll lookup ∅ before).meet n.kind).1) ::
      siblingSegments lookup ((meetAll lookup ∅ before).meet n.kind).2 (before.length + 1) after := by
  have hbefore (c : ℕ) (hc : c ∈ before) := same c (List.mem_append_left _ hc)
  have hafter (c : ℕ) (hc : c ∈ after) := same c (List.mem_append_right _ hc)
  rw [segments_append, segments_congr hbefore, meet_all_congr _ _ hbefore, segments_cons hm,
    segments_congr hafter, Nat.zero_add, key, meet_of_same _ key]

end Walk

section Distinct

variable {lookup : ℕ → Option (Node K)} {children : List ℕ} {seen : Occurrences} {index : ℕ}

/-- What a key can still be once so many names were met, from this position on. -/
def Later (seen : Occurrences) (index : ℕ) : IdentitySegment → Prop
  | .boundary _ => True
  | .named tag name occurrence => (seen.get (tag, name)).getD 0 ≤ occurrence
  | .positional _ i => index ≤ i

theorem meet_grows (seen : Occurrences) (kind : NodeKind K) (k : ℕ × String) :
    (seen.get k).getD 0 ≤ ((seen.meet kind).2.get k).getD 0 := by
  unfold Occurrences.meet
  split
  · rename_i name hname
    by_cases hk : k = (kind.tag, name)
    · subst hk
      rw [FiniteMap.get_set_self, Option.getD_some]
      omega
    · rw [FiniteMap.get_set_ne _ _ hk]
  · exact le_rfl

theorem later_mono {kind : NodeKind K} {s : IdentitySegment}
    (h : Later (seen.meet kind).2 (index + 1) s) : Later seen index s := by
  cases s with
  | boundary i => trivial
  | named tag name occurrence => exact (meet_grows seen kind _).trans h
  | positional tag i => exact (Nat.le_succ index).trans h

theorem later_own (n : Node K) : Later seen index (.of n index (seen.meet n.kind).1) := by
  unfold IdentitySegment.of
  split
  · trivial
  · split
    · rename_i name hname
      simp [Later, Occurrences.meet, hname]
    · exact le_rfl

theorem later_of_mem {c : ℕ} {s : IdentitySegment}
    (h : (c, s) ∈ siblingSegments lookup seen index children) : Later seen index s := by
  induction children generalizing seen index with
  | nil => cases h
  | cons d rest ih =>
    cases hd : lookup d with
    | none =>
      rw [siblingSegments, hd] at h
      have hrest := ih h
      cases s with
      | boundary i => trivial
      | named tag name occurrence => exact hrest
      | positional tag i => exact (Nat.le_succ index).trans hrest
    | some n =>
      rw [segments_cons hd] at h
      rcases List.mem_cons.mp h with heq | h
      · rw [(Prod.mk.inj heq).2]
        exact later_own n
      · exact later_mono (ih h)

theorem own_used (n : Node K)
    (h : Later (seen.meet n.kind).2 (index + 1) (.of n index (seen.meet n.kind).1)) :
    ∃ i, n.kind = .boundary i := by
  unfold IdentitySegment.of at h
  split at h
  · rename_i i hi
    exact ⟨i, hi⟩
  · split at h
    · rename_i name hname
      simp only [Later, Occurrences.meet, hname, FiniteMap.get_set_self, Option.getD_some] at h
      omega
    · exact absurd h (Nat.not_succ_le_self index)

theorem segments_distinct {c d : ℕ} {s : IdentitySegment}
    (once : ∀ a b i, (lookup a).map (·.kind) = some (.boundary i) →
      (lookup b).map (·.kind) = some (.boundary i) → a = b)
    (hc : (c, s) ∈ siblingSegments lookup seen index children)
    (hd : (d, s) ∈ siblingSegments lookup seen index children) : c = d := by
  induction children generalizing seen index with
  | nil => cases hc
  | cons x rest ih =>
    cases hx : lookup x with
    | none =>
      rw [siblingSegments, hx] at hc hd
      exact ih hc hd
    | some n =>
      have first {y : ℕ} (hs : s = .of n index (seen.meet n.kind).1)
          (hy : (y, s) ∈ siblingSegments lookup (seen.meet n.kind).2 (index + 1) rest) : x = y := by
        subst hs
        obtain ⟨i, hi⟩ := own_used n (later_of_mem hy)
        rw [of_boundary hi] at hy
        exact once x y i (by rw [hx, Option.map_some, hi]) (boundary_of_segment hy)
      rw [segments_cons hx] at hc hd
      rcases List.mem_cons.mp hc with heq | hc'
      · obtain ⟨rfl, hs⟩ := Prod.mk.inj heq
        rcases List.mem_cons.mp hd with heq' | hd'
        · exact (Prod.mk.inj heq').1.symm
        · exact first hs hd'
      · rcases List.mem_cons.mp hd with heq | hd'
        · obtain ⟨rfl, hs⟩ := Prod.mk.inj heq
          exact (first hs hc').symm
        · exact ih hc' hd'

end Distinct

section Counting

variable {g : MountedGraph K} {n : Node K} {name : String} {children : List ℕ}

theorem count_met {count : ℕ} (seen : Occurrences)
    (h : countNamesakes g n name children = (.ok count : Reading K ℕ)) :
    ((meetAll g.node seen children).get (n.kind.tag, name)).getD 0 =
      (seen.get (n.kind.tag, name)).getD 0 + count := by
  induction children generalizing seen count with
  | nil =>
    obtain rfl := Except.ok.inj h
    rfl
  | cons c rest ih =>
    rw [countNamesakes] at h
    split at h
    · cases h
    rename_i other hc
    obtain ⟨before, hbefore, h⟩ := except_bind_ok.mp h
    obtain rfl := Except.ok.inj h
    rw [meetAll, hc]
    dsimp only
    rw [ih _ hbefore]
    by_cases hname : other.kind.siblingName = some name
    · by_cases htag : other.kind.tag = n.kind.tag
      · simp only [Occurrences.meet, hname, htag, FiniteMap.get_set_self, Option.getD_some, and_self,
          if_true]
        omega
      · have hne : (n.kind.tag, name) ≠ (other.kind.tag, name) := fun heq =>
          htag (Prod.mk.inj heq).1.symm
        simp only [Occurrences.meet, hname, htag, FiniteMap.get_set_ne _ _ hne, false_and, if_false]
    · rw [if_neg fun hboth => hname hboth.2]
      cases hother : other.kind.siblingName with
      | none => simp only [Occurrences.meet, hother]
      | some name' =>
        have hne : (n.kind.tag, name) ≠ (other.kind.tag, name') := fun heq =>
          hname (hother.trans (congrArg some (Prod.mk.inj heq).2.symm))
        simp only [Occurrences.meet, hother, FiniteMap.get_set_ne _ _ hne]

/-- The key computed for a new root is the one it gets among the children. -/
theorem root_segment_at [DecidableEq K] {p index : ℕ} {s : IdentitySegment}
    (hchildren : g.childrenOf p = (.ok children : Reading K (List ℕ)))
    (h : rootSegmentOf g (some (p, index)) n = (.ok s : Reading K IdentitySegment)) :
    s = .of n index ((meetAll g.node ∅ (children.take index)).meet n.kind).1 := by
  rw [rootSegmentOf] at h
  cases hname : n.kind.siblingName with
  | none =>
    rw [hname] at h
    obtain rfl := Except.ok.inj h
    simp [Occurrences.meet, hname]
  | some name =>
    simp only [hname] at h
    obtain ⟨children', hchildren', hrest⟩ := except_bind_ok.mp h
    obtain ⟨count, hcount, hs⟩ := except_bind_ok.mp hrest
    obtain rfl := Except.ok.inj (hchildren.symm.trans hchildren')
    obtain rfl := Except.ok.inj hs
    have met := count_met ∅ hcount
    rw [FiniteMap.get_empty, Option.getD_none, Nat.zero_add] at met
    simp only [Occurrences.meet, hname, met]

end Counting

end SiblingSegments
