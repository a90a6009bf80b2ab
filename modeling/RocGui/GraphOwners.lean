import RocGui.FragmentOwners
import RocGui.GraphIndices

/-! Who owns a mounted node, and that a patch leaves the owners of what it keeps. -/
namespace GraphOwners

open FiniteMaps Methods KeyedOrder GraphState FragmentValidation GraphPatches FragmentTrees
open FragmentOwners GraphForests GraphMounting GraphGrafts GraphLedgers PointerTrees

variable {K : Type}

/-- The component that owns a node: the nearest boundary above it. -/
inductive OwnedBy (g : MountedGraph K) : ℕ → Option ℕ → Prop where
  | outermost {c : ℕ} : g.parentLocation c = none → OwnedBy g c none
  | inside {c i : ℕ} {l : ParentLocation K} : g.parentLocation c = some l →
      kindAt g l.parent = some (.boundary i) → OwnedBy g c (some i)
  | within {c : ℕ} {l : ParentLocation K} {o : Option ℕ} : g.parentLocation c = some l →
      (∀ i, kindAt g l.parent ≠ some (.boundary i)) → OwnedBy g l.parent o → OwnedBy g c o

section Owners

variable {g g' : MountedGraph K} {c id : ℕ} {o o' : Option ℕ}

theorem owned_unique (h : OwnedBy g c o) (h' : OwnedBy g c o') : o = o' := by
  induction h with
  | outermost hp =>
    cases h' with
    | outermost => rfl
    | inside hp' => cases hp.symm.trans hp'
    | within hp' => cases hp.symm.trans hp'
  | inside hp hk =>
    cases h' with
    | outermost hp' => cases hp.symm.trans hp'
    | inside hp' hk' =>
      obtain rfl := Option.some.inj (hp.symm.trans hp')
      simpa using hk.symm.trans hk'
    | within hp' hk' =>
      obtain rfl := Option.some.inj (hp.symm.trans hp')
      exact absurd hk (hk' _)
  | within hp hk _ ih =>
    cases h' with
    | outermost hp' => cases hp.symm.trans hp'
    | inside hp' hk' =>
      obtain rfl := Option.some.inj (hp.symm.trans hp')
      exact absurd hk' (hk _)
    | within hp' _ ho' =>
      obtain rfl := Option.some.inj (hp.symm.trans hp')
      exact ih ho'

theorem owned_congr (parents : g'.parentLocation = g.parentLocation) (kinds : kindAt g' = kindAt g)
    (h : OwnedBy g c o) : OwnedBy g' c o := by
  induction h with
  | outermost hp => exact .outermost (parents ▸ hp)
  | inside hp hk => exact .inside (parents ▸ hp) (kinds ▸ hk)
  | within hp hk _ ih => exact .within (parents ▸ hp) (kinds ▸ hk) ih

/-- The component that owns what hangs under a node: the node itself if it is a boundary. -/
def OwnsUnder (g : MountedGraph K) (id : ℕ) (o : Option ℕ) : Prop :=
  (∃ i, kindAt g id = some (.boundary i) ∧ o = some i) ∨
  (∀ i, kindAt g id ≠ some (.boundary i)) ∧ OwnedBy g id o

theorem owner_from {ε : Type} {fuel : ℕ}
    (closed : ∀ c l, g.parentLocation c = some l → (g.nodes.get l.parent).isSome)
    (hid : (g.nodes.get id).isSome) (h : g.ownerFrom fuel id = (.ok o : Except (Failure ε) _)) :
    OwnsUnder g id o := by
  induction fuel generalizing id with
  | zero => cases h
  | succ fuel ih =>
    obtain ⟨e, he⟩ := Option.isSome_iff_exists.mp hid
    simp only [MountedGraph.ownerFrom, he] at h
    split at h
    · rename_i i hk
      obtain rfl := Except.ok.inj h
      exact .inl ⟨i, by rw [kindAt_eq he, hk], rfl⟩
    · rename_i hk
      have hkind : ∀ i, kindAt g id ≠ some (.boundary i) := fun i hi => by
        rw [kindAt_eq he] at hi
        exact hk i (Option.some.inj hi)
      refine .inr ⟨hkind, ?_⟩
      have hp := location_eq he
      split at h
      · rename_i hnone
        obtain rfl := Except.ok.inj h
        exact .outermost (hp.trans hnone)
      · rename_i l hl
        rcases ih (closed id l (hp.trans hl)) h with ⟨i, hi, rfl⟩ | ⟨hi, ho⟩
        · exact .inside (hp.trans hl) hi
        · exact .within (hp.trans hl) hi ho

theorem owned_under {l : ParentLocation K} (hp : g.parentLocation c = some l)
    (h : OwnsUnder g l.parent o) : OwnedBy g c o := by
  rcases h with ⟨i, hi, rfl⟩ | ⟨hi, ho⟩
  · exact .inside hp hi
  · exact .within hp hi ho

end Owners

section Patches

variable [DecidableEq K] {g v : MountedGraph K} {removed : List ℕ} {nodes : List (Node K)}
  {frontier : Finset ℕ} {tops : List (ℕ × Option (ParentLocation K))} {site root : Option ℕ}
  (e : Grafted g v removed nodes frontier tops site root) (h : Shape g)
  (boundaries : ∀ c ∈ frontier, ∃ i, kindAt g c = some (.boundary i))

include e h in
theorem kind_kept {x : ℕ} (hm : (forest g).Mounted x) (hr : x ∉ removed) : kindAt v x = kindAt g x :=
  e.kind_kept h hm hr

include e h in
theorem parent_kept {x : ℕ} {l : ParentLocation K} (hm : (forest g).Mounted x) (hr : x ∉ removed)
    (hf : x ∉ frontier) (hl : g.parentLocation x = some l) :
    (forest g).Mounted l.parent ∧ l.parent ∉ removed :=
  ⟨mounted_of_kid (h.linked.listed hm hl), fun hgone => hf (e.graft.all_kept hm hr hl hgone)⟩

include e h boundaries in
theorem owned_kept {x : ℕ} {o : Option ℕ} (ho : OwnedBy g x o) (hm : (forest g).Mounted x)
    (hr : x ∉ removed) (hf : x ∉ frontier) : OwnedBy v x o := by
  induction ho with
  | outermost hp => exact .outermost ((e.parent_kept h hm hr hf).trans hp)
  | inside hp hk =>
    obtain ⟨hm', hr'⟩ := parent_kept e h hm hr hf hp
    exact .inside ((e.parent_kept h hm hr hf).trans hp) ((kind_kept e h hm' hr').trans hk)
  | within hp hk _ ih =>
    obtain ⟨hm', hr'⟩ := parent_kept e h hm hr hf hp
    refine .within ((e.parent_kept h hm hr hf).trans hp) (kind_kept e h hm' hr' ▸ hk)
      (ih hm' hr' fun hmem => ?_)
    -- a retained root would own what is below it
    obtain ⟨i, hi⟩ := boundaries _ hmem
    exact hk i hi

include e h boundaries in
theorem owns_under_kept {x : ℕ} {o : Option ℕ} (ho : OwnsUnder g x o) (hm : (forest g).Mounted x)
    (hr : x ∉ removed) (hf : x ∉ frontier) : OwnsUnder v x o := by
  rw [OwnsUnder, kind_kept e h hm hr]
  exact ho.imp_right fun ⟨hk, ho⟩ => ⟨hk, owned_kept e h boundaries ho hm hr hf⟩

include e h in
theorem owned_fresh {fresh : FiniteMap ℕ (Node K)} {top x : ℕ} {outer o : Option ℕ}
    (staged : ∀ id n, fresh.get id = some n → n ∈ nodes ∧ n.id = id)
    (htop : OwnedBy v top outer) (ho : OwnedIn fresh top outer x o) : OwnedBy v x o := by
  have kind {p : ℕ} {n : Node K} (hn : fresh.get p = some n) : kindAt v p = some n.kind := by
    obtain ⟨hmem, rfl⟩ := staged p n hn
    rw [kindAt, e.node_fresh h hmem]
    rfl
  induction ho with
  | root => exact htop
  | inside hn hk hc =>
    obtain ⟨hmem, rfl⟩ := staged _ _ hn
    obtain ⟨l, hl, hp⟩ := e.parent_fresh h hmem hc
    exact .inside hl (by rw [hp, kind hn, hk])
  | within hn hk hc _ ih =>
    obtain ⟨hmem, rfl⟩ := staged _ _ hn
    obtain ⟨l, hl, hp⟩ := e.parent_fresh h hmem hc
    refine .within hl (fun i hi => ?_) (hp ▸ ih)
    rw [hp, kind hn] at hi
    exact hk i (Option.some.inj hi)

end Patches

end GraphOwners
