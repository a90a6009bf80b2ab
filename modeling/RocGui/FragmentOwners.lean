import RocGui.KeyedStaging

/-! Who owns the inputs of an accepted fragment, and what stands in it only once. -/
namespace FragmentOwners

open FiniteMaps Methods GraphState FragmentValidation GraphPatches FragmentTrees KeyedStaging

variable {K : Type}

/-- The component that owns a node of a fragment: the nearest boundary above it, and
`outer` where there is none. -/
inductive OwnedIn (fresh : FiniteMap ℕ (Node K)) (root : ℕ) (outer : Option ℕ) :
    ℕ → Option ℕ → Prop where
  | root : OwnedIn fresh root outer root outer
  | inside {p c i : ℕ} {n : Node K} : fresh.get p = some n → n.kind = .boundary i →
      c ∈ n.children → OwnedIn fresh root outer c (some i)
  | within {p c : ℕ} {n : Node K} {o : Option ℕ} : fresh.get p = some n →
      (∀ i, n.kind ≠ .boundary i) → c ∈ n.children → OwnedIn fresh root outer p o →
      OwnedIn fresh root outer c o

def InputAt (fresh : FiniteMap ℕ (Node K)) (id : ℕ) (label : String) : Prop :=
  ∃ n enabled, fresh.get id = some n ∧ n.kind = .textInput label enabled

section Traversal

variable {fresh : FiniteMap ℕ (Node K)} {retained : Finset ℕ} {root : ℕ} {outer : Option ℕ}
  {t t' : Traversal}

/-- The walk carries every node's owner along. -/
structure Owning (fresh : FiniteMap ℕ (Node K)) (root : ℕ) (outer : Option ℕ) (t : Traversal) :
    Prop where
  pending : ∀ {id o}, (id, false, o) ∈ t.pending → OwnedIn fresh root outer id o
  owned : ∀ {id o}, t.inputOwners.get id = some o → OwnedIn fresh root outer id o
  noted : ∀ {id o}, t.inputOwners.get id = some o → ∃ label, InputAt fresh id label
  labels : ∀ {id o label}, t.inputOwners.get id = some o → InputAt fresh id label →
    (o, label) ∈ t.inputLabels
  apart : ∀ {x y o label}, InputAt fresh x label → InputAt fresh y label →
    t.inputOwners.get x = some o → t.inputOwners.get y = some o → x = y

theorem input_label {id : ℕ} {l l' : String} (h : InputAt fresh id l) (h' : InputAt fresh id l') :
    l = l' := by
  obtain ⟨n, a, hn, hk⟩ := h
  obtain ⟨m, b, hm, hk'⟩ := h'
  obtain rfl := Option.some.inj (hn.symm.trans hm)
  rw [hk] at hk'
  cases hk'
  rfl

theorem owning_descend {id : ℕ} {n : Node K} {o' : Option ℕ}
    {pending : List (ℕ × Bool × Option ℕ)} (w : Owning fresh root outer t)
    (below : ∀ c ∈ n.children, OwnedIn fresh root outer c o')
    (rest : ∀ e ∈ pending, e ∈ t.pending) (hinputs : t'.inputOwners = t.inputOwners)
    (hlabels : t'.inputLabels = t.inputLabels)
    (hp : t'.pending = n.children.map (fun c => (c, false, o')) ++ (id, true, o') :: pending) :
    Owning fresh root outer t' where
  pending := by
    intro x q hx
    rw [hp, List.mem_append, List.mem_cons] at hx
    rcases hx with hx | hx | hx
    · obtain ⟨c, hc, heq⟩ := List.mem_map.mp hx
      obtain ⟨rfl, -, rfl⟩ : c = x ∧ false = false ∧ o' = q := by simpa using heq
      exact below c hc
    · cases hx
    · exact w.pending (rest _ hx)
  owned h := w.owned (hinputs ▸ h)
  noted h := w.noted (hinputs ▸ h)
  labels h := hlabels ▸ w.labels (hinputs ▸ h)
  apart hx hy hox hoy := w.apart hx hy (hinputs ▸ hox) (hinputs ▸ hoy)

theorem visit_owning {id : ℕ} {exiting : Bool} {owner : Option ℕ}
    {pending : List (ℕ × Bool × Option ℕ)} (hp : t.pending = (id, exiting, owner) :: pending)
    (w : Owning fresh root outer t)
    (h : visit fresh retained { t with pending } id exiting owner = .ok t') :
    Owning fresh root outer t' := by
  have rest : ∀ e ∈ pending, e ∈ t.pending := fun e he => hp ▸ List.mem_cons_of_mem _ he
  have skip (hpending : t'.pending = pending) (hinputs : t'.inputOwners = t.inputOwners)
      (hlabels : t'.inputLabels = t.inputLabels) : Owning fresh root outer t' :=
    ⟨fun hx => w.pending (rest _ (hpending ▸ hx)), fun h => w.owned (hinputs ▸ h),
      fun h => w.noted (hinputs ▸ h), fun h => hlabels ▸ w.labels (hinputs ▸ h),
      fun hx hy hox hoy => w.apart hx hy (hinputs ▸ hox) (hinputs ▸ hoy)⟩
  unfold visit at h
  split at h
  · cases h
    exact skip rfl rfl rfl
  rename_i hexit
  have hid : OwnedIn fresh root outer id owner := w.pending (by
    rw [hp, Bool.eq_false_iff.mpr hexit]
    exact List.mem_cons_self)
  split at h
  · cases h
  dsimp only at h
  split at h
  · cases h
    exact skip rfl rfl rfl
  cases hnode : fresh.get id with
  | none => simp [hnode] at h
  | some n =>
    simp only [hnode] at h
    split at h
    · rename_i i hk
      cases h
      exact owning_descend w (fun c hc => .inside hnode hk hc) rest rfl rfl rfl
    · rename_i label enabled hk
      split at h
      · cases h
      rename_i hfresh
      cases h
      have below : ∀ c ∈ n.children, OwnedIn fresh root outer c owner := fun c hc =>
        .within hnode (by simp [hk]) hc hid
      have here : InputAt fresh id label := ⟨n, enabled, hnode, hk⟩
      refine ⟨fun {x q} hx => ?_, fun {x q} hx => ?_, fun {x q} hx => ?_, fun {x q l} hx hl => ?_,
        fun {x y q l} hx hy hox hoy => ?_⟩
      · rw [List.mem_append, List.mem_cons] at hx
        rcases hx with hx | hx | hx
        · obtain ⟨c, hc, heq⟩ := List.mem_map.mp hx
          obtain ⟨rfl, -, rfl⟩ : c = x ∧ false = false ∧ owner = q := by simpa using heq
          exact below c hc
        · cases hx
        · exact w.pending (rest _ hx)
      · rw [FiniteMap.get_set] at hx
        split at hx
        · rename_i heq
          obtain rfl := Option.some.inj hx
          exact heq ▸ hid
        · exact w.owned hx
      · rw [FiniteMap.get_set] at hx
        split at hx
        · rename_i heq
          exact ⟨label, heq ▸ here⟩
        · exact w.noted hx
      · rw [FiniteMap.get_set] at hx
        split at hx
        · rename_i heq
          obtain rfl := Option.some.inj hx
          obtain rfl := input_label here (heq ▸ hl)
          exact Finset.mem_insert_self _ _
        · exact Finset.mem_insert_of_mem (w.labels hx hl)
      · rw [FiniteMap.get_set] at hox hoy
        -- an earlier input of this label and owner would have been refused
        split at hox
        · rename_i heqx
          split at hoy
          · rename_i heqy
            exact heqx.trans heqy.symm
          · obtain rfl := Option.some.inj hox
            obtain rfl := input_label here (heqx ▸ hx)
            exact absurd (w.labels hoy hy) hfresh
        · split at hoy
          · rename_i heqy
            obtain rfl := Option.some.inj hoy
            obtain rfl := input_label here (heqy ▸ hy)
            exact absurd (w.labels hox hx) hfresh
          · exact w.apart hx hy hox hoy
    · rename_i hb _
      cases h
      exact owning_descend w (fun c hc => .within hnode hb hc hid) rest rfl rfl rfl

theorem traverse_owning {fuel : ℕ} (w : Owning fresh root outer t)
    (h : traverse fresh retained fuel t = .ok t') : Owning fresh root outer t' := by
  induction fuel generalizing t with
  | zero =>
    simp only [FragmentValidation.traverse] at h
    split at h
    · cases h
      exact w
    · cases h
  | succ fuel ih =>
    cases hp : t.pending with
    | nil =>
      simp only [FragmentValidation.traverse, hp] at h
      cases h
      exact w
    | cons e pending =>
      obtain ⟨id, exiting, owner⟩ := e
      simp only [FragmentValidation.traverse, hp, except_bind_ok] at h
      obtain ⟨next, hvisit, hrest⟩ := h
      exact ih (visit_owning hp w hvisit) hrest

end Traversal

section Tallies

variable {lookup : ℕ → Option (Node K)} {listed : ℕ → Bool} {tally tally' : Tally}
  {nodes : List (Node K)}

theorem tally_counts {node : Node K} (h : checkNode lookup listed tally node = .ok tally') :
    (∀ i, node.kind = .boundary i → i ∉ tally.instances ∧
      tally'.instances = insert i tally.instances) ∧
    ((∀ i, node.kind ≠ .boundary i) → tally'.instances = tally.instances) ∧
    (∀ label, node.kind = .dialog label → tally.dialogs = 0 ∧ tally'.dialogs = 1) ∧
    ((∀ label, node.kind ≠ .dialog label) → tally'.dialogs = tally.dialogs) := by
  simp only [checkNode, except_bind_ok] at h
  obtain ⟨noted, hnoted, -, -, owned, -, heq⟩ := h
  obtain rfl : { noted with ownership := owned } = tally' := Except.ok.inj heq
  unfold tallyNode at hnoted
  split at hnoted
  · rename_i label hk
    split at hnoted
    · cases hnoted
    · cases hnoted
      refine ⟨by simp [hk], by simp, fun l _ => ⟨by omega, by simp only; omega⟩, by simp [hk]⟩
  · rename_i label enabled hk
    split at hnoted
    · cases hnoted
    · cases hnoted
      exact ⟨by simp [hk], by simp, by simp [hk], by simp⟩
  · rename_i i hk
    split at hnoted
    · cases hnoted
    · rename_i hfresh
      cases hnoted
      refine ⟨fun j hj => ?_, by simp [hk], by simp [hk], by simp⟩
      obtain rfl : i = j := by simpa using hk.symm.trans hj
      exact ⟨hfresh, rfl⟩
  · rename_i hd ht hb
    cases hnoted
    exact ⟨fun i hi => absurd hi (hb i), fun _ => rfl, fun l hl => absurd hl (hd l), fun _ => rfl⟩

theorem instances_once (h : nodes.foldlM (checkNode lookup listed) tally = .ok tally') :
    (instancesOf nodes).Nodup ∧ ∀ i ∈ instancesOf nodes, i ∉ tally.instances := by
  induction nodes generalizing tally with
  | nil => simp [instancesOf]
  | cons node rest ih =>
    rw [List.foldlM_cons, except_bind_ok] at h
    obtain ⟨next, hnode, hrest⟩ := h
    obtain ⟨nodup, apart⟩ := ih hrest
    obtain ⟨hboundary, hother, -, -⟩ := tally_counts hnode
    cases hone : instancesOf [node] with
    | nil =>
      have hnone : ∀ i, node.kind ≠ .boundary i := fun i hi => by simp [instancesOf, hi] at hone
      have hcons : instancesOf (node :: rest) = instancesOf rest := by
        rw [← List.singleton_append, instancesOf_append, hone, List.nil_append]
      rw [hcons, ← hother hnone]
      exact ⟨nodup, apart⟩
    | cons i more =>
      have hi : node.kind = .boundary i := by
        obtain ⟨n, hn, hk⟩ := mem_instancesOf.mp (hone ▸ List.mem_cons_self : i ∈ instancesOf [node])
        obtain rfl := List.mem_singleton.mp hn
        exact hk
      have hcons : instancesOf (node :: rest) = i :: instancesOf rest := by
        simp [instancesOf, hi]
      obtain ⟨hfresh, hinsert⟩ := hboundary i hi
      rw [hinsert] at apart
      rw [hcons, List.nodup_cons]
      refine ⟨⟨fun hmem => apart i hmem (Finset.mem_insert_self _ _), nodup⟩, fun j hj => ?_⟩
      rcases List.mem_cons.mp hj with rfl | hj
      · exact hfresh
      · exact fun hmem => apart j hj (Finset.mem_insert_of_mem hmem)

theorem dialogs_once (h : nodes.foldlM (checkNode lookup listed) tally = .ok tally') :
    (tally.dialogs ≠ 0 → ∀ n ∈ nodes, ∀ l, n.kind ≠ .dialog l) ∧
      ∀ n ∈ nodes, ∀ m ∈ nodes, ∀ l l', n.kind = .dialog l → m.kind = .dialog l' → n = m := by
  induction nodes generalizing tally with
  | nil => simp
  | cons node rest ih =>
    rw [List.foldlM_cons, except_bind_ok] at h
    obtain ⟨next, hnode, hrest⟩ := h
    obtain ⟨later, once⟩ := ih hrest
    obtain ⟨-, -, hdialog, hother⟩ := tally_counts hnode
    by_cases hd : ∃ l, node.kind = .dialog l
    · obtain ⟨l, hl⟩ := hd
      obtain ⟨hzero, hone⟩ := hdialog l hl
      have none := later (by omega)
      refine ⟨fun hne => absurd hzero hne, fun n hn m hm a b ha hb => ?_⟩
      rcases List.mem_cons.mp hn with rfl | hn
      · rcases List.mem_cons.mp hm with rfl | hm
        · rfl
        · exact absurd hb (none m hm b)
      · exact absurd ha (none n hn a)
    · have hnone : ∀ l, node.kind ≠ .dialog l := fun l hl => hd ⟨l, hl⟩
      rw [hother hnone] at later
      refine ⟨fun hne n hn => ?_, fun n hn m hm a b ha hb => ?_⟩
      · rcases List.mem_cons.mp hn with rfl | hn
        · exact hnone
        · exact later hne n hn
      · rcases List.mem_cons.mp hn with rfl | hn
        · exact absurd ha (hnone a)
        · rcases List.mem_cons.mp hm with rfl | hm
          · exact absurd hb (hnone b)
          · exact once n hn m hm a b ha hb

end Tallies

section Accepted

variable {root : ℕ} {nodes : List (Node K)} {retained : Finset ℕ} {outer : Option ℕ}
  {mounted : ℕ → Option (Node K)} {validated : ValidatedFragment K}

/-- What an accepted fragment has only once, and whose its inputs are. -/
structure Sole (root : ℕ) (nodes : List (Node K)) (outer : Option ℕ)
    (validated : ValidatedFragment K) : Prop where
  owned : ∀ {id o}, validated.inputOwners.get id = some o → OwnedIn validated.fresh root outer id o
  noted : ∀ {id o}, validated.inputOwners.get id = some o → ∃ label, InputAt validated.fresh id label
  apart : ∀ {x y o label}, InputAt validated.fresh x label → InputAt validated.fresh y label →
    validated.inputOwners.get x = some o → validated.inputOwners.get y = some o → x = y
  instances : (instancesOf nodes).Nodup
  dialogs : ∀ n ∈ nodes, ∀ m ∈ nodes, ∀ l l', n.kind = .dialog l → m.kind = .dialog l' → n = m

theorem validated_sole (h : validateFragment root nodes retained outer mounted = .ok validated) :
    Sole root nodes outer validated := by
  simp only [validateFragment, except_guard_ok, except_bind_ok, not_not] at h
  obtain ⟨-, -, fresh, -, -, tally, htally, -, t, ht, -, heq⟩ := h
  obtain rfl : (⟨fresh, t.inputOwners, t.postorder, t.visits⟩ : ValidatedFragment K) = validated :=
    Except.ok.inj heq
  have start : Owning fresh root outer
      ⟨[(root, false, outer)], ∅, ∅, ∅, [], nodes.length⟩ := by
    refine ⟨fun {x o} hx => ?_, by simp, by simp, by simp, by simp⟩
    obtain ⟨rfl, rfl⟩ : x = root ∧ o = outer := by simpa using hx
    exact .root
  have w := traverse_owning start ht
  exact ⟨w.owned, w.noted, w.apart, (instances_once (refuse_ok htally)).1,
    (dialogs_once (refuse_ok htally)).2⟩

end Accepted

end FragmentOwners
