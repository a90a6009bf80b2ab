import RocGui.GraphExchanges

/-! The indices of a mounted graph: what each lists, and how retiring and mounting a
node keeps them exact. -/
namespace GraphLedgers

open FiniteMaps Methods KeyedOrder GraphState FragmentValidation GraphPatches FragmentTrees
open GraphForests GraphMounting GraphExchanges

variable {K : Type}

def kindAt (g : MountedGraph K) (id : ℕ) : Option (NodeKind K) := (g.node id).map (·.kind)

structure Ledger where
  boundaries : FiniteMap ℕ ℕ
  labels : FiniteMap (Option ℕ × String) ℕ
  owners : FiniteMap ℕ (Option ℕ)
  dialog : Option ℕ
  newest : Option ℕ
  regions : Finset ℕ
  windowRegions : Finset ℕ

def ledger (g : MountedGraph K) : Ledger :=
  ⟨g.boundaryInstances, g.inputLabels, g.inputOwners, g.dialog, g.maxSeenInstance,
    g.interaction.keyboard.regions, g.interaction.keyboard.windowRegions⟩

def shortcutsOf : NodeKind K → List Shortcut
  | .popover _ _ _ _ shortcuts _ | .split _ _ _ _ _ _ _ shortcuts => shortcuts
  | _ => []

/-- Whether a shortcut of this node is live wherever focus is. A divider's never are. -/
def armsWindow : NodeKind K → Bool
  | .popover _ _ _ _ shortcuts _ => shortcuts.any (·.scope = .window)
  | _ => false

/-- The indices list exactly the nodes of these kinds; `owner` is the component an
input belongs to. -/
structure Exact (kinds : ℕ → Option (NodeKind K)) (owner : ℕ → Option ℕ) (d : Ledger) : Prop where
  boundaries : ∀ {i id}, d.boundaries.get i = some id ↔ kinds id = some (.boundary i)
  owners : ∀ {id o}, d.owners.get id = some o ↔
    (∃ label enabled, kinds id = some (.textInput label enabled)) ∧ owner id = o
  labels : ∀ {o label id}, d.labels.get (o, label) = some id ↔
    (∃ enabled, kinds id = some (.textInput label enabled)) ∧ owner id = o
  dialog : ∀ {id}, d.dialog = some id ↔ ∃ label, kinds id = some (.dialog label)
  newest : ∀ {i id}, kinds id = some (.boundary i) → ∃ newest ∈ d.newest, i ≤ newest

structure Armed (kinds : ℕ → Option (NodeKind K)) (d : Ledger) : Prop where
  regions : ∀ {id}, id ∈ d.regions ↔ ∃ kind, kinds id = some kind ∧ shortcutsOf kind ≠ []
  windowRegions : ∀ {id}, id ∈ d.windowRegions ↔
    ∃ kind, kinds id = some kind ∧ armsWindow kind = true

/-- No two nodes claim one entry of an index. -/
structure Apart (kinds : ℕ → Option (NodeKind K)) (owner : ℕ → Option ℕ) : Prop where
  boundaries : ∀ {x y i}, kinds x = some (.boundary i) → kinds y = some (.boundary i) → x = y
  inputs : ∀ {x y label a b}, kinds x = some (.textInput label a) →
    kinds y = some (.textInput label b) → owner x = owner y → x = y
  dialogs : ∀ {x y a b}, kinds x = some (.dialog a) → kinds y = some (.dialog b) → x = y

section Exactness

variable {kinds : ℕ → Option (NodeKind K)} {owner : ℕ → Option ℕ} {d : Ledger} {id : ℕ}
  {kind : NodeKind K}

theorem exact_apart (h : Exact kinds owner d) : Apart kinds owner where
  boundaries hx hy := by
    have := h.boundaries.mpr hx
    rw [h.boundaries.mpr hy] at this
    exact (Option.some.inj this).symm
  inputs hx hy ho := by
    have := h.labels.mpr ⟨⟨_, hx⟩, ho⟩
    rw [h.labels.mpr ⟨⟨_, hy⟩, rfl⟩] at this
    exact (Option.some.inj this).symm
  dialogs hx hy := by
    have := h.dialog.mpr ⟨_, hx⟩
    rw [h.dialog.mpr ⟨_, hy⟩] at this
    exact (Option.some.inj this).symm

theorem exact_owner {owner' : ℕ → Option ℕ} (h : Exact kinds owner d)
    (same : ∀ x label enabled, kinds x = some (.textInput label enabled) → owner' x = owner x) :
    Exact kinds owner' d where
  boundaries := h.boundaries
  owners := by
    intro x o
    rw [h.owners]
    refine and_congr_right ?_
    rintro ⟨label, enabled, hx⟩
    rw [same x label enabled hx]
  labels := by
    intro o label x
    rw [h.labels]
    refine and_congr_right ?_
    rintro ⟨enabled, hx⟩
    rw [same x label enabled hx]
  dialog := h.dialog
  newest := h.newest

def Ledger.unindex (d : Ledger) (id : ℕ) : NodeKind K → Ledger
  | .boundary instanceId => { d with boundaries := d.boundaries.remove instanceId }
  | .textInput label _ => { d with
      owners := d.owners.remove id
      labels := d.labels.remove ((d.owners.get id).join, label) }
  | .dialog _ => { d with dialog := none }
  | _ => d

theorem update_none_iff {x : ℕ} {k : NodeKind K} :
    Function.update kinds id none x = some k ↔ x ≠ id ∧ kinds x = some k := by
  rw [Function.update_apply]
  by_cases hx : x = id <;> simp [hx]

theorem exact_unindex (h : Exact kinds owner d) (hid : kinds id = some kind) :
    Exact (Function.update kinds id none) owner (d.unindex id kind) := by
  have newest {i x : ℕ} (hx : Function.update kinds id none x = some (.boundary i)) :
      ∃ newest ∈ d.newest, i ≤ newest := h.newest (update_none_iff.mp hx).2
  have boundaries (hk : ∀ i, kind ≠ .boundary i) {i x : ℕ} : d.boundaries.get i = some x ↔
      Function.update kinds id none x = some (.boundary i) := by
    rw [h.boundaries, update_none_iff, and_iff_right_of_imp]
    rintro hx rfl
    exact hk i (Option.some.inj (hid.symm.trans hx))
  have owners (hk : ∀ l e, kind ≠ .textInput l e) {x : ℕ} {o : Option ℕ} : d.owners.get x = some o ↔
      (∃ label enabled, Function.update kinds id none x = some (.textInput label enabled)) ∧
        owner x = o := by
    simp only [h.owners, update_none_iff]
    refine and_congr_left fun _ => exists_congr fun l => exists_congr fun e =>
      (and_iff_right_of_imp ?_).symm
    rintro hx rfl
    exact hk l e (Option.some.inj (hid.symm.trans hx))
  have labels (hk : ∀ l e, kind ≠ .textInput l e) {x : ℕ} {o : Option ℕ} {label : String} :
      d.labels.get (o, label) = some x ↔
        (∃ enabled, Function.update kinds id none x = some (.textInput label enabled)) ∧
          owner x = o := by
    simp only [h.labels, update_none_iff]
    refine and_congr_left fun _ => exists_congr fun e => (and_iff_right_of_imp ?_).symm
    rintro hx rfl
    exact hk label e (Option.some.inj (hid.symm.trans hx))
  have dialog (hk : ∀ l, kind ≠ .dialog l) {x : ℕ} : d.dialog = some x ↔
      ∃ label, Function.update kinds id none x = some (.dialog label) := by
    simp only [h.dialog, update_none_iff]
    refine exists_congr fun l => (and_iff_right_of_imp ?_).symm
    rintro hx rfl
    exact hk l (Option.some.inj (hid.symm.trans hx))
  have apart := exact_apart h
  unfold Ledger.unindex
  split
  · rename_i i
    refine ⟨fun {i' x} => ?_, owners (by simp), labels (by simp), dialog (by simp), newest⟩
    rw [FiniteMap.get_remove, update_none_iff]
    split
    · rename_i heq
      subst heq
      simp only [reduceCtorEq, false_iff, not_and]
      exact fun hne hx => hne (apart.boundaries hx hid)
    · rename_i hne
      rw [h.boundaries, and_iff_right_of_imp]
      rintro hx rfl
      exact hne (by simpa using hx.symm.trans hid)
  · rename_i label enabled
    have howner : (d.owners.get id).join = owner id := by
      rw [h.owners.mpr ⟨⟨label, enabled, hid⟩, rfl⟩]
      rfl
    refine ⟨boundaries (by simp), fun {x o} => ?_, fun {o l x} => ?_, dialog (by simp), newest⟩
    · simp only [FiniteMap.get_remove, update_none_iff]
      by_cases hx : x = id
      · simp [hx]
      · simp [hx, h.owners]
    · simp only [FiniteMap.get_remove, update_none_iff, howner, Prod.mk.injEq]
      split
      · rename_i heq
        obtain ⟨rfl, rfl⟩ := heq
        simp only [reduceCtorEq, false_iff, not_and]
        rintro ⟨e, hne, hx⟩ ho
        exact hne (apart.inputs hx hid ho)
      · rename_i hne
        rw [h.labels]
        refine and_congr_left fun ho => exists_congr fun e => (and_iff_right_of_imp ?_).symm
        rintro hx rfl
        refine hne ⟨ho.symm, ?_⟩
        have := Option.some.inj (hx.symm.trans hid)
        cases this
        rfl
  · refine ⟨boundaries (by simp), owners (by simp), labels (by simp), fun {x} => ?_, newest⟩
    simp only [update_none_iff, reduceCtorEq, false_iff, not_exists, not_and]
    exact fun l hne hx => hne (apart.dialogs hx hid)
  · exact ⟨boundaries ‹_›, owners ‹_›, labels ‹_›, dialog ‹_›, newest⟩

def Ledger.index (d : Ledger) (id : ℕ) (owner : Option ℕ) : NodeKind K → Ledger
  | .boundary instanceId => { d with
      boundaries := d.boundaries.set instanceId id
      newest := newestInstance d.newest instanceId }
  | .textInput label _ => { d with
      owners := d.owners.set id owner
      labels := d.labels.set (owner, label) id }
  | .dialog _ => { d with dialog := some id }
  | .popover _ _ _ _ shortcuts _ => { d with
      regions := if shortcuts ≠ [] then insert id d.regions else d.regions
      windowRegions := if shortcuts.any (·.scope = .window) then insert id d.windowRegions
        else d.windowRegions }
  | .split _ _ _ _ _ _ _ shortcuts => { d with
      regions := if shortcuts ≠ [] then insert id d.regions else d.regions }
  | _ => d

theorem update_some_iff (hid : kinds id = none) {x : ℕ} {k : NodeKind K} :
    Function.update kinds id (some kind) x = some k ↔ x = id ∧ k = kind ∨ kinds x = some k := by
  rw [Function.update_apply]
  by_cases hx : x = id
  · simp [hx, hid, eq_comm]
  · simp [hx]

theorem newest_index {newest : Option ℕ} {i j : ℕ} (h : j = i ∨ ∃ m ∈ newest, j ≤ m) :
    ∃ m ∈ newestInstance newest i, j ≤ m := by
  cases newest with
  | none =>
    obtain rfl : j = i := by simpa using h
    exact ⟨j, rfl, le_rfl⟩
  | some m =>
    refine ⟨max m i, rfl, ?_⟩
    simp only [Option.mem_def, Option.some.injEq, exists_eq_left'] at h
    omega

theorem exact_index (h : Exact kinds owner d) (hid : kinds id = none)
    (apart : Apart (Function.update kinds id (some kind)) owner) :
    Exact (Function.update kinds id (some kind)) owner (d.index id (owner id) kind) := by
  have hself : Function.update kinds id (some kind) id = some kind := Function.update_self ..
  have hnone {o : Option ℕ} : d.owners.get id ≠ some o := fun ho => by
    obtain ⟨⟨l, e, hl⟩, -⟩ := h.owners.mp ho
    simp [hid] at hl
  have boundaries (hk : ∀ i, kind ≠ .boundary i) {i x : ℕ} : d.boundaries.get i = some x ↔
      Function.update kinds id (some kind) x = some (.boundary i) := by
    rw [h.boundaries, update_some_iff hid, or_iff_right fun heq => hk i heq.2.symm]
  have owners (hk : ∀ l e, kind ≠ .textInput l e) {x : ℕ} {o : Option ℕ} : d.owners.get x = some o ↔
      (∃ label enabled, Function.update kinds id (some kind) x =
        some (.textInput label enabled)) ∧ owner x = o := by
    simp only [h.owners, update_some_iff hid]
    refine and_congr_left fun _ => exists_congr fun l => exists_congr fun e => ?_
    rw [or_iff_right fun heq => hk l e heq.2.symm]
  have labels (hk : ∀ l e, kind ≠ .textInput l e) {x : ℕ} {o : Option ℕ} {label : String} :
      d.labels.get (o, label) = some x ↔ (∃ enabled, Function.update kinds id (some kind) x =
        some (.textInput label enabled)) ∧ owner x = o := by
    simp only [h.labels, update_some_iff hid]
    refine and_congr_left fun _ => exists_congr fun e => ?_
    rw [or_iff_right fun heq => hk label e heq.2.symm]
  have dialog (hk : ∀ l, kind ≠ .dialog l) {x : ℕ} : d.dialog = some x ↔
      ∃ label, Function.update kinds id (some kind) x = some (.dialog label) := by
    simp only [h.dialog, update_some_iff hid]
    refine exists_congr fun l => ?_
    rw [or_iff_right fun heq => hk l heq.2.symm]
  have newest (hk : ∀ i, kind ≠ .boundary i) {i x : ℕ}
      (hx : Function.update kinds id (some kind) x = some (.boundary i)) :
      ∃ m ∈ d.newest, i ≤ m := by
    rcases (update_some_iff hid).mp hx with ⟨-, heq⟩ | hx
    · exact absurd heq.symm (hk i)
    · exact h.newest hx
  unfold Ledger.index
  split
  · rename_i i
    refine ⟨fun {i' x} => ?_, owners (by simp), labels (by simp), dialog (by simp),
      fun {i' x} hx => ?_⟩
    · rw [FiniteMap.get_set]
      split
      · rename_i heq
        subst heq
        rw [Option.some.injEq]
        constructor
        · rintro rfl
          exact hself
        · exact fun hx => apart.boundaries hself hx
      · rename_i hne
        rw [h.boundaries, update_some_iff hid, or_iff_right]
        simp [hne]
    · refine newest_index ?_
      rcases (update_some_iff hid).mp hx with ⟨-, heq⟩ | hx
      · exact .inl (by simpa using heq)
      · exact .inr (h.newest hx)
  · rename_i label enabled
    refine ⟨boundaries (by simp), fun {x o} => ?_, fun {o l x} => ?_, dialog (by simp),
      newest (by simp)⟩
    · rw [FiniteMap.get_set]
      by_cases hx : x = id
      · subst hx
        rw [if_pos rfl, Option.some.injEq, hself]
        simp
      · rw [if_neg hx, h.owners, Function.update_of_ne hx]
    · rw [FiniteMap.get_set]
      split
      · rename_i heq
        obtain ⟨rfl, rfl⟩ := Prod.mk.inj heq
        rw [Option.some.injEq]
        constructor
        · rintro rfl
          exact ⟨⟨enabled, hself⟩, rfl⟩
        · rintro ⟨⟨e, hx⟩, ho⟩
          exact apart.inputs hself hx ho.symm
      · rename_i hne
        simp only [h.labels, update_some_iff hid]
        refine and_congr_left fun ho => exists_congr fun e => (or_iff_right ?_).symm
        rintro ⟨rfl, heq⟩
        cases heq
        exact hne (by rw [ho])
  · refine ⟨boundaries (by simp), owners (by simp), labels (by simp), fun {x} => ?_, newest (by simp)⟩
    rw [Option.some.injEq]
    constructor
    · rintro rfl
      exact ⟨_, hself⟩
    · rintro ⟨l, hx⟩
      exact apart.dialogs hself hx
  · exact ⟨boundaries (by simp), owners (by simp), labels (by simp), dialog (by simp),
      newest (by simp)⟩
  · exact ⟨boundaries (by simp), owners (by simp), labels (by simp), dialog (by simp),
      newest (by simp)⟩
  · exact ⟨boundaries ‹_›, owners ‹_›, labels ‹_›, dialog ‹_›, newest ‹_›⟩

theorem regions_index (o : Option ℕ) : (d.index id o kind).regions =
    if shortcutsOf kind ≠ [] then insert id d.regions else d.regions := by
  cases kind <;> simp only [Ledger.index, shortcutsOf, ne_eq, not_true, if_false] <;> congr

theorem windowRegions_index (o : Option ℕ) : (d.index id o kind).windowRegions =
    if armsWindow kind then insert id d.windowRegions else d.windowRegions := by
  cases kind <;> simp [Ledger.index, armsWindow]

theorem armed_index (h : Armed kinds d) (hid : kinds id = none) (o : Option ℕ) :
    Armed (Function.update kinds id (some kind)) (d.index id o kind) := by
  refine ⟨fun {x} => ?_, fun {x} => ?_⟩
  · simp only [regions_index, update_some_iff hid, or_and_right, exists_or, ← h.regions]
    by_cases hs : shortcutsOf kind = []
    · simp [hs]
    · simp [hs]
  · simp only [windowRegions_index, update_some_iff hid, or_and_right, exists_or, ← h.windowRegions]
    by_cases hs : armsWindow kind = true
    · simp [hs]
    · simp [hs]

variable (d id kind) in
theorem regions_unindex : (d.unindex id kind).regions = d.regions ∧
    (d.unindex id kind).windowRegions = d.windowRegions := by
  cases kind <;> exact ⟨rfl, rfl⟩

theorem newest_unindex : (d.unindex id kind).newest = d.newest := by
  cases kind <;> rfl

end Exactness

section Methods

variable {g g' : MountedGraph K} {id : ℕ}

/-- The kinds of the mounted nodes beside the indices over them. -/
def register (g : MountedGraph K) : (ℕ → Option (NodeKind K)) × Ledger := (kindAt g, ledger g)

theorem kindAt_eq {e : MountedNode K} (h : g.nodes.get id = some e) :
    kindAt g id = some e.node.kind := by
  rw [kindAt, MountedGraph.node, h]
  rfl

theorem kindAt_set (e : MountedNode K) : kindAt { g with nodes := g.nodes.set id e } =
    Function.update (kindAt g) id (some e.node.kind) := by
  funext x
  simp only [kindAt, MountedGraph.node, FiniteMap.get_set, Function.update_apply]
  split <;> rfl

theorem kindAt_remove : kindAt { g with nodes := g.nodes.remove id } =
    Function.update (kindAt g) id none := by
  funext x
  simp only [kindAt, MountedGraph.node, FiniteMap.get_remove, Function.update_apply]
  split <;> rfl

variable {c : (ℕ → Option (NodeKind K)) × Ledger}

theorem preserves_alter {message : String} {f : MountedNode K → MountedNode K}
    (kind : ∀ e, (f e).node.kind = e.node.kind) :
    Preserves (fun g : MountedGraph K => register g = c) (alter message id f) := by
  intro g hg
  cases he : g.nodes.get id with
  | none =>
    rw [alter, run_bind_ok (EStateM.run_get g), he]
    exact hg
  | some e =>
    rw [alter_run _ _ he, after_ok]
    refine Eq.trans ?_ hg
    rw [register, register, kindAt_set, kind, ← kindAt_eq he, Function.update_eq_self]
    rfl

theorem retire_register {message : String} {instances ended : List ℕ}
    (h : (retire message instances id).run g = .ok ended g') : ∃ e, g.nodes.get id = some e ∧
      kindAt g' = Function.update (kindAt g) id none ∧
      ledger g' = (ledger g).unindex id e.node.kind ∧
      ended = instances ++ instancesOf [e.node] := by
  simp only [retire, bind_ok, get_ok, expect_ok, modify_ok] at h
  obtain ⟨_, _, ⟨rfl, rfl⟩, e, _, ⟨he, rfl⟩, _, t, rfl, hrest⟩ := h
  refine ⟨e, he, ?_⟩
  rw [← kindAt_remove]
  split at hrest
  · rename_i i hk
    simp only [bind_ok, modify_ok, pure_ok] at hrest
    obtain ⟨_, _, rfl, rfl, rfl⟩ := hrest
    exact ⟨rfl, by rw [hk]; rfl, by simp [instancesOf, hk]⟩
  · rename_i label enabled hk
    simp only [bind_ok, modify_ok, pure_ok] at hrest
    obtain ⟨_, _, rfl, rfl, rfl⟩ := hrest
    exact ⟨rfl, by rw [hk]; rfl, by simp [instancesOf, hk]⟩
  · rename_i label hk
    simp only [bind_ok, modify_ok, pure_ok] at hrest
    obtain ⟨_, _, rfl, rfl, rfl⟩ := hrest
    exact ⟨rfl, by rw [hk]; rfl, by simp [instancesOf, hk]⟩
  · rename_i hb ht hd
    obtain ⟨rfl, rfl⟩ := pure_ok.mp hrest
    refine ⟨rfl, ?_, ?_⟩
    · unfold Ledger.unindex
      split
      · exact absurd ‹_› (hb _)
      · exact absurd ‹_› (ht _ _)
      · exact absurd ‹_› (hd _)
      · rfl
    · have : instancesOf [e.node] = [] := by
        unfold instancesOf
        rw [List.filterMap_cons, List.filterMap_nil]
        cases hk : e.node.kind <;> simp_all
      rw [this, List.append_nil]

theorem mount_register {validated : ValidatedFragment K} {n : Node K} {u : Unit}
    (h : (mountNode validated n).run g = .ok u g') :
    kindAt g' = Function.update (kindAt g) n.id (some n.kind) ∧
      ledger g' = (ledger g).index n.id ((validated.inputOwners.get n.id).getD none) n.kind ∧
      ((∃ label enabled, n.kind = .textInput label enabled) →
        (validated.inputOwners.get n.id).isSome) := by
  simp only [mountNode, bind_ok, modify_ok] at h
  obtain ⟨_, t, hindex, rfl⟩ := h
  have hkind : kindAt { t with nodes := t.nodes.set n.id (fresh n) } =
      Function.update (kindAt t) n.id (some n.kind) := kindAt_set (fresh n)
  simp only [indexNode, bind_ok, modify_ok] at hindex
  obtain ⟨_, _, rfl, hrest⟩ := hindex
  have done {t : MountedGraph K} (same : kindAt t = kindAt g)
      (indexed : ledger t = (ledger g).index n.id ((validated.inputOwners.get n.id).getD none) n.kind)
      (input : (∃ label enabled, n.kind = .textInput label enabled) →
        (validated.inputOwners.get n.id).isSome) :
      kindAt { t with nodes := t.nodes.set n.id (fresh n) } =
          Function.update (kindAt g) n.id (some n.kind) ∧
        ledger { t with nodes := t.nodes.set n.id (fresh n) } =
          (ledger g).index n.id ((validated.inputOwners.get n.id).getD none) n.kind ∧
        ((∃ label enabled, n.kind = .textInput label enabled) →
          (validated.inputOwners.get n.id).isSome) :=
    ⟨by rw [kindAt_set, same]; rfl, indexed, input⟩
  split at hrest
  · rename_i i hk
    obtain rfl := modify_ok.mp hrest
    exact done rfl (by rw [hk]; rfl) (by simp [hk])
  · rename_i label enabled hk
    simp only [bind_ok, expect_ok, modify_ok] at hrest
    obtain ⟨o, _, ⟨ho, rfl⟩, rfl⟩ := hrest
    exact done rfl (by rw [hk, ho]; rfl) fun _ => by simp [ho]
  · rename_i label hk
    obtain rfl := modify_ok.mp hrest
    exact done rfl (by rw [hk]; rfl) (by simp [hk])
  · rename_i hk
    obtain rfl := modify_ok.mp hrest
    exact done rfl (by rw [hk]; rfl) (by simp [hk])
  · rename_i shortcuts hk
    split at hrest
    · rename_i hne
      obtain rfl := modify_ok.mp hrest
      exact done rfl (by rw [hk]; simp [Ledger.index, ledger, hne]) (by simp [hk])
    · rename_i hnil
      obtain ⟨-, rfl⟩ := pure_ok.mp hrest
      exact done rfl (by rw [hk]; simp only [Ledger.index, if_neg hnil]; rfl) (by simp [hk])
  · rename_i hb ht hd hp hs
    obtain ⟨-, rfl⟩ := pure_ok.mp hrest
    have unnamed : ¬∃ label enabled, n.kind = .textInput label enabled := by
      rintro ⟨l, e, hl⟩
      exact ht l e hl
    refine done rfl ?_ unnamed.elim
    unfold Ledger.index
    split
    · exact absurd ‹_› (hb _)
    · exact absurd ‹_› (ht _ _)
    · exact absurd ‹_› (hd _)
    · exact absurd ‹_› (hp _ _ _ _ _ _)
    · exact absurd ‹_› (hs _ _ _ _ _ _ _ _)
    · rfl

end Methods

end GraphLedgers
