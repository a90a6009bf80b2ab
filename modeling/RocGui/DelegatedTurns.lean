import RocGui.Delegations

/-! An action reaches the boundary that the policies on its way name: the levels counted by
the adapters and the path climbed by the runtime find the same one. -/
namespace DelegatedTurns

open FiniteMaps Actions BoundaryChains Delegations

section Climbing

variable {α γ S : Type} {boundaries : FiniteMap ℕ (BoundaryInfo S)}

def Registered (boundaries : FiniteMap ℕ (BoundaryInfo S)) (key : ℕ) (path : List ℕ)
    (bound : Option Bound) : Prop :=
  ∃ memo, boundaries.get key = some ⟨path, bound, memo⟩

def TopMounted (boundaries : FiniteMap ℕ (BoundaryInfo S)) : Top → Prop
  | .root => Registered boundaries 0 [0] none
  | .transparent up key =>
    TopMounted boundaries up ∧ Registered boundaries key (up.path ++ [key]) (some ⟨true⟩)
  | .keyed up key =>
    TopMounted boundaries up ∧ Registered boundaries key (up.path ++ [key]) (some ⟨false⟩)

def Mounted (boundaries : FiniteMap ℕ (BoundaryInfo S)) : {γ : Type} → Chain α γ → Prop
  | _, .top t => TopMounted boundaries t
  | _, .boundary up key .. =>
    Mounted boundaries up ∧ Registered boundaries key (up.path ++ [key]) (some ⟨false⟩)
  | _, .lift up .. => Mounted boundaries up
  | _, .transparent up key =>
    Mounted boundaries up ∧ Registered boundaries key (up.path ++ [key]) (some ⟨true⟩)

theorem registered_transparent {key : ℕ} {path : List ℕ} {bound : Bound}
    (h : Registered boundaries key path (some bound)) :
    isTransparent boundaries key = bound.transparent := by
  obtain ⟨memo, h⟩ := h
  simp only [isTransparent, h]

theorem skip_le {path : List ℕ} {offset o : ℕ} (h : skipTransparent boundaries path offset = .ok o) :
    o ≤ offset := by
  induction offset with
  | zero =>
    cases h
    exact Nat.le_refl 0
  | succ offset ih =>
    rw [skipTransparent] at h
    split at h
    · cases h
    · split at h
      · exact (ih h).trans (Nat.le_succ _)
      · cases h
        exact Nat.le_refl _

theorem skip_append {path : List ℕ} (more : List ℕ) {offset : ℕ} (h : offset < path.length) :
    skipTransparent boundaries (path ++ more) offset = skipTransparent boundaries path offset := by
  induction offset with
  | zero => rfl
  | succ offset ih =>
    rw [skipTransparent, skipTransparent, List.getElem?_append_left h, ih (Nat.lt_of_succ_lt h)]

theorem climb_append {path : List ℕ} (more : List ℕ) {k offset : ℕ} (h : offset < path.length) :
    climb boundaries (path ++ more) k offset = climb boundaries path k offset := by
  induction k generalizing offset with
  | zero => rfl
  | succ k ih =>
    cases offset with
    | zero => rfl
    | succ offset =>
      rw [climb, climb, skip_append more (Nat.lt_of_succ_lt h)]
      cases hskip : skipTransparent boundaries path offset with
      | error e => rfl
      | ok o => exact ih ((skip_le hskip).trans_lt (Nat.lt_of_succ_lt h))

/-- From the end of a path up to the `k`-th boundary that holds state. -/
def locate (boundaries : FiniteMap ℕ (BoundaryInfo S)) (path : List ℕ) (k : ℕ) : Except String ℕ :=
  skipTransparent boundaries path (path.length - 1) >>= climb boundaries path k

theorem locate_append (boundaries : FiniteMap ℕ (BoundaryInfo S)) {path : List ℕ}
    (hne : path ≠ []) (key k : ℕ) :
    skipTransparent boundaries (path ++ [key]) (path.length - 1) >>=
      climb boundaries (path ++ [key]) k = locate boundaries path k := by
  have hlt : path.length - 1 < path.length :=
    Nat.sub_lt (List.length_pos_of_ne_nil hne) Nat.one_pos
  rw [locate, skip_append [key] hlt]
  cases hskip : skipTransparent boundaries path (path.length - 1) with
  | error e => rfl
  | ok o => exact climb_append [key] ((skip_le hskip).trans_lt hlt)

theorem locate_transparent {path : List ℕ} (hne : path ≠ []) {key : ℕ} (k : ℕ)
    (h : isTransparent boundaries key = true) :
    locate boundaries (path ++ [key]) k = locate boundaries path k := by
  obtain ⟨m, hm⟩ : ∃ m, path.length = m + 1 :=
    Nat.exists_eq_succ_of_ne_zero (fun h0 => hne (List.length_eq_zero_iff.mp h0))
  have hlast : (path ++ [key])[m + 1]? = some key := by
    rw [← hm]
    exact List.getElem?_concat_length
  have happend := locate_append boundaries hne key k
  rw [hm, Nat.add_sub_cancel] at happend
  rw [← happend, locate, List.length_append, hm, List.length_singleton, Nat.add_sub_cancel,
    skipTransparent, hlast]
  simp only [h, if_true]

theorem locate_holding {path : List ℕ} (hne : path ≠ []) {key : ℕ}
    (h : isTransparent boundaries key = false) :
    locate boundaries (path ++ [key]) 0 = .ok path.length ∧
      ∀ k, locate boundaries (path ++ [key]) (k + 1) = locate boundaries path k := by
  obtain ⟨m, hm⟩ : ∃ m, path.length = m + 1 :=
    Nat.exists_eq_succ_of_ne_zero (fun h0 => hne (List.length_eq_zero_iff.mp h0))
  have hlast : (path ++ [key])[m + 1]? = some key := by
    rw [← hm]
    exact List.getElem?_concat_length
  have hskip : skipTransparent boundaries (path ++ [key]) (m + 1) = .ok (m + 1) := by
    rw [skipTransparent, hlast]
    simp only [h, Bool.false_eq_true, if_false]
  refine ⟨?_, fun k => ?_⟩
  · rw [locate, List.length_append, List.length_singleton, Nat.add_sub_cancel, hm, hskip]
    rfl
  · have happend := locate_append boundaries hne key k
    rw [hm, Nat.add_sub_cancel] at happend
    rw [← happend, locate, List.length_append, List.length_singleton, Nat.add_sub_cancel, hm, hskip]
    rfl

theorem top_path_ne (t : Top) : t.path ≠ [] := by
  cases t <;> simp [Top.path]

theorem path_ne (chain : Chain α γ) : chain.path ≠ [] := by
  induction chain with
  | top t => exact top_path_ne t
  | lift up get set ih => exact ih
  | boundary | transparent => simp [Chain.path]

theorem top_located {t : Top} (mounted : TopMounted boundaries t) :
    ∃ o, locate boundaries t.path 0 = .ok o ∧ t.path[o]? = some (topOwner t) := by
  induction t with
  | root => exact ⟨0, rfl, rfl⟩
  | transparent up key ih =>
    obtain ⟨o, ho, hkey⟩ := ih mounted.1
    refine ⟨o, ?_, ?_⟩
    · rw [Top.path, locate_transparent (top_path_ne up) 0 (registered_transparent mounted.2)]
      exact ho
    · exact (List.getElem?_append_left (List.getElem?_eq_some_iff.mp hkey).1).trans hkey
  | keyed up key ih =>
    refine ⟨up.path.length, ?_, List.getElem?_concat_length⟩
    exact (locate_holding (top_path_ne up) (registered_transparent mounted.2)).1

theorem located (chain : Chain α γ) (mounted : Mounted boundaries chain) {k : ℕ}
    (hk : k ≤ (policies chain).length) :
    ∃ o, locate boundaries chain.path k = .ok o ∧
      chain.path[o]? = some (owner (ancestor chain k).2) := by
  induction chain generalizing k with
  | top t =>
    obtain rfl : k = 0 := Nat.le_zero.mp hk
    exact top_located mounted
  | boundary up key project set delegated ih =>
    have holding := locate_holding (path_ne up) (registered_transparent mounted.2)
    cases k with
    | zero => exact ⟨up.path.length, holding.1, List.getElem?_concat_length⟩
    | succ k =>
      obtain ⟨o, ho, hkey⟩ := ih mounted.1 (Nat.le_of_succ_le_succ hk)
      refine ⟨o, (holding.2 k).trans ho, ?_⟩
      exact (List.getElem?_append_left (List.getElem?_eq_some_iff.mp hkey).1).trans hkey
  | lift up get set ih =>
    obtain ⟨o, ho, hkey⟩ := ih mounted hk
    refine ⟨o, ho, hkey.trans ?_⟩
    cases k with
    | zero => rw [ancestor_zero, ancestor_zero, owner]
    | succ k => rfl
  | transparent up key ih =>
    obtain ⟨o, ho, hkey⟩ := ih mounted.1 hk
    refine ⟨o, ?_, ?_⟩
    · rw [Chain.path, locate_transparent (path_ne up) k (registered_transparent mounted.2)]
      exact ho
    · refine (List.getElem?_append_left (List.getElem?_eq_some_iff.mp hkey).1).trans (hkey.trans ?_)
      cases k with
      | zero => rw [ancestor_zero, ancestor_zero, owner]
      | succ k => rfl

theorem mounted_origin (chain : Chain α γ) (mounted : Mounted boundaries chain) :
    ∃ bound memo, boundaries.get chain.key = some ⟨chain.path, bound, memo⟩ := by
  induction chain with
  | top t =>
    cases t with
    | root => exact ⟨none, mounted⟩
    | transparent up key => exact ⟨some ⟨true⟩, mounted.2⟩
    | keyed up key => exact ⟨some ⟨false⟩, mounted.2⟩
  | boundary up key project set delegated => exact ⟨some ⟨false⟩, mounted.2⟩
  | lift up get set ih => exact ih mounted
  | transparent up key => exact ⟨some ⟨true⟩, mounted.2⟩

def OnPath (boundaries : FiniteMap ℕ (BoundaryInfo S)) (path : List ℕ) (key : ℕ) : Prop :=
  ∃ info, boundaries.get key = some info ∧ ∀ k ∈ info.path, k ∈ path

theorem on_path_more {path : List ℕ} {last key : ℕ} {bound : Option Bound}
    (before : ∀ k ∈ path, OnPath boundaries path k)
    (h : Registered boundaries last (path ++ [last]) bound) (hkey : key ∈ path ++ [last]) :
    OnPath boundaries (path ++ [last]) key := by
  rcases List.mem_append.mp hkey with hkey | hkey
  · obtain ⟨info, hinfo, hpath⟩ := before key hkey
    exact ⟨info, hinfo, fun k hk => List.mem_append_left _ (hpath k hk)⟩
  · obtain rfl := List.mem_singleton.mp hkey
    obtain ⟨memo, hinfo⟩ := h
    exact ⟨_, hinfo, fun k hk => hk⟩

theorem top_on_path {t : Top} (mounted : TopMounted boundaries t) :
    ∀ key ∈ t.path, OnPath boundaries t.path key := by
  induction t with
  | root =>
    intro key hkey
    obtain rfl := List.mem_singleton.mp hkey
    obtain ⟨memo, hinfo⟩ := mounted
    exact ⟨_, hinfo, fun k hk => hk⟩
  | transparent up key ih | keyed up key ih =>
    intro k hk
    exact on_path_more (ih mounted.1) mounted.2 hk

theorem mounted_on_path (chain : Chain α γ) (mounted : Mounted boundaries chain) :
    ∀ key ∈ chain.path, OnPath boundaries chain.path key := by
  induction chain with
  | top t => exact top_on_path mounted
  | lift up get set ih => exact ih mounted
  | boundary up key project set delegated ih | transparent up key ih =>
    intro k hk
    exact on_path_more (ih mounted.1) mounted.2 hk

def SameTree (boundaries boundaries' : FiniteMap ℕ (BoundaryInfo S)) : Prop :=
  ∀ key, (boundaries'.get key).map (fun info => (info.path, info.bound)) =
    (boundaries.get key).map fun info => (info.path, info.bound)

theorem dirty_same (owner : ℕ) {path : List ℕ} (h : ∀ key ∈ path, (boundaries.get key).isSome) :
    ∃ stale, dirty owner boundaries path = .ok stale ∧ SameTree boundaries stale := by
  induction path generalizing boundaries with
  | nil => exact ⟨boundaries, rfl, fun _ => rfl⟩
  | cons key rest ih =>
    obtain ⟨info, hinfo⟩ := Option.isSome_iff_exists.mp (h key List.mem_cons_self)
    rw [dirty, hinfo]
    dsimp only
    by_cases hkey : key = owner
    · rw [if_neg (not_not.mpr hkey)]
      exact ih fun k hk => h k (List.mem_cons_of_mem _ hk)
    rw [if_pos hkey]
    have marked (k : ℕ) : ((boundaries.set key { info with memo := none }).get k).map
        (fun info => (info.path, info.bound)) =
          (boundaries.get k).map fun info => (info.path, info.bound) := by
      rw [FiniteMap.get_set]
      by_cases hk : k = key
      · rw [if_pos hk, hk, hinfo]
        rfl
      · rw [if_neg hk]
    have present : ∀ k ∈ rest,
        ((boundaries.set key { info with memo := none }).get k).isSome := by
      intro k hk
      have := h k (List.mem_cons_of_mem _ hk)
      rw [← Option.isSome_map (f := fun info => (info.path, info.bound)), marked,
        Option.isSome_map]
      exact this
    obtain ⟨stale, hstale, same⟩ := ih present
    exact ⟨stale, hstale, fun k => (same k).trans (marked k)⟩

end Climbing

section Turns

variable {α γ S : Type} {state : α} {boundaries : FiniteMap ℕ (BoundaryInfo S)} {action : Action α}

theorem apply_noChange (origin : ℕ) (settled : action.Settled) (h : proposed action = .noChange) :
    applyResolved action state origin boundaries = .ok ⟨state, none, none, none, boundaries⟩ := by
  obtain ⟨value, levels⟩ := action
  cases value with
  | noChange => rfl
  | deferred resume => exact absurd rfl (settled resume)
  | _ => cases h

theorem apply_owner (chain : Chain α γ) (mounted : Mounted boundaries chain)
    (hlevels : action.ownerLevels ≤ (policies chain).length)
    (hchange : proposed action ≠ .noChange ∧ proposed action ≠ .refresh) :
    ∃ stale, SameTree boundaries stale ∧
      applyResolved action state chain.key boundaries =
        updateOwner action state (owner (ancestor chain action.ownerLevels).2) stale := by
  obtain ⟨bound, memo, horigin⟩ := mounted_origin chain mounted
  obtain ⟨o, ho, hkey⟩ := located chain mounted hlevels
  obtain ⟨info, hinfo, hpath⟩ := mounted_on_path chain mounted _ (List.mem_of_getElem? hkey)
  have present : ∀ key ∈ info.path, (boundaries.get key).isSome := by
    intro key hk
    obtain ⟨info', hinfo', -⟩ := mounted_on_path chain mounted key (hpath key hk)
    exact Option.isSome_of_eq_some hinfo'
  obtain ⟨stale, hstale, same⟩ :=
    dirty_same (owner (ancestor chain action.ownerLevels).2) present
  refine ⟨stale, same, ?_⟩
  have changes : changesState action = true := by
    obtain ⟨value, levels⟩ := action
    cases value with
    | refresh => exact absurd rfl hchange.2
    | _ => rfl
  have hoffset : ownerOffset boundaries chain.path (changesState action) action.ownerLevels =
      .ok o := by
    rw [ownerOffset, if_pos changes]
    exact ho
  rw [changes] at hoffset
  have hvalue : action.value ≠ .noChange := fun h => hchange.1 (by simp only [proposed, h])
  unfold applyResolved
  split
  · exact absurd ‹_› hvalue
  · rw [horigin]
    simp only [hoffset, changes, hkey, hinfo, hstale, if_true, bind, Except.bind]

theorem apply_refresh (chain : Chain α γ) (mounted : Mounted boundaries chain)
    (settled : action.Settled) (h : proposed action = .refresh) :
    ∃ owner, applyResolved action state chain.key boundaries =
      .ok ⟨state, some owner, none, none, boundaries⟩ := by
  obtain ⟨bound, memo, horigin⟩ := mounted_origin chain mounted
  have hpos := List.length_pos_of_ne_nil (path_ne chain)
  obtain ⟨o, ho, hlt⟩ : ∃ o, ownerOffset boundaries chain.path false action.ownerLevels = .ok o ∧
      o < chain.path.length := by
    refine ⟨_, rfl, ?_⟩
    split <;> omega
  obtain ⟨owner, hkey⟩ : ∃ owner, chain.path[o]? = some owner := ⟨_, List.getElem?_eq_getElem hlt⟩
  obtain ⟨info, hinfo, -⟩ := mounted_on_path chain mounted owner (List.mem_of_getElem? hkey)
  refine ⟨owner, ?_⟩
  obtain ⟨value, levels⟩ := action
  cases value with
  | refresh =>
    have hchanges : changesState (.mk .refresh levels : Action α) = false := rfl
    unfold applyResolved
    rw [horigin]
    simp only [Action.value, ho, hkey, hinfo, hchanges, Bool.false_eq_true, if_false, bind,
      Except.bind, pure, Except.pure, updateOwner]
  | deferred resume => exact absurd rfl (settled resume)
  | _ => cases h

theorem owner_change {next : α} {owner : ℕ} (settled : action.Settled)
    (h : proposed action = .change next) :
    ∃ task canceled, updateOwner action state owner boundaries =
        .ok ⟨next, some owner, task, canceled, boundaries⟩ ∧
      (∀ started, task = some started → started.1 = owner) ∧
      ∀ stopped, canceled = some stopped → stopped.1 = owner := by
  obtain ⟨value, levels⟩ := action
  cases value with
  | update state | task key state run | cancel key state =>
    obtain rfl : state = next := by simpa [proposed, Action.value] using h
    exact ⟨_, _, rfl, by rintro _ ⟨⟩ <;> rfl, by rintro _ ⟨⟩ <;> rfl⟩
  | deferred resume => exact absurd rfl (settled resume)
  | _ => cases h

theorem owner_delegate {next : α} {owner : ℕ} (settled : action.Settled)
    (h : proposed action = .delegate next) :
    updateOwner action state owner boundaries = .ok ⟨next, some 0, none, none, boundaries⟩ := by
  obtain ⟨own, rfl⟩ := delegate_value settled h
  rfl

end Turns

section Lenses

variable {α γ : Type} {state : α}

/-- Every setter on the way up replaces the child that its getter reads. -/
def Lawful {α : Type} : {γ : Type} → Chain α γ → Prop
  | _, .top _ => True
  | _, .boundary up _ project set _ =>
    Lawful up ∧ ∀ parent child next, set parent child = some next → project next = some child
  | _, .lift up get set => Lawful up ∧ ∀ parent child, get (set parent child) = child
  | _, .transparent up _ => Lawful up

/-- The states of boundaries beside a place: readings of an ancestor that the setter towards
the place preserves. -/
inductive Beside {α : Type} : {γ : Type} → Chain α γ → {ε : Type} → (α → Option ε) → Prop where
  | boundary {β γ ε : Type} {up : Chain α β} {key : ℕ} {project : β → Option γ}
      {set : β → γ → Option β} {delegated : β → Answer β} {read : β → Option ε} :
      (∀ parent child next, set parent child = some next → read next = read parent) →
      Beside (.boundary up key project set delegated) fun state => (up.view state).bind read
  | lift {β γ ε : Type} {up : Chain α β} {get : β → γ} {set : β → γ → β} {read : β → Option ε} :
      (∀ parent child, read (set parent child) = read parent) →
      Beside (.lift up get set) fun state => (up.view state).bind read
  | under_boundary {β γ ε : Type} {up : Chain α β} {key : ℕ} {project : β → Option γ}
      {set : β → γ → Option β} {delegated : β → Answer β} {read : α → Option ε} :
      Beside up read → Beside (.boundary up key project set delegated) read
  | under_lift {β γ ε : Type} {up : Chain α β} {get : β → γ} {set : β → γ → β}
      {read : α → Option ε} : Beside up read → Beside (.lift up get set) read
  | under_transparent {γ ε : Type} {up : Chain α γ} {key : ℕ} {read : α → Option ε} :
      Beside up read → Beside (.transparent up key) read

theorem view_write (place : Chain α γ) (lawful : Lawful place) {x : γ} {next : α}
    (h : write place state x = some next) : place.view next = some x := by
  induction place with
  | top t => exact h.symm
  | boundary up key project set delegated ih =>
    simp only [write, Option.bind_eq_some_iff] at h
    obtain ⟨parent, -, changed, hset, hwrite⟩ := h
    rw [Chain.view, ih lawful.1 hwrite]
    exact lawful.2 parent x changed hset
  | lift up get set ih =>
    simp only [write, Option.bind_eq_some_iff] at h
    obtain ⟨parent, -, hwrite⟩ := h
    rw [Chain.view, ih lawful.1 hwrite, Option.map_some, lawful.2]
  | transparent up key ih => exact ih lawful h

theorem beside_write {place : Chain α γ} {ε : Type} {read : α → Option ε} (beside : Beside place read)
    (lawful : Lawful place) {x : γ} {next : α} (h : write place state x = some next) :
    read next = read state := by
  induction beside with
  | boundary preserved =>
    simp only [write, Option.bind_eq_some_iff] at h
    obtain ⟨parent, hview, changed, hset, hwrite⟩ := h
    dsimp only
    rw [view_write _ lawful.1 hwrite, hview]
    exact preserved parent x changed hset
  | lift preserved =>
    simp only [write, Option.bind_eq_some_iff] at h
    obtain ⟨parent, hview, hwrite⟩ := h
    dsimp only
    rw [view_write _ lawful.1 hwrite, hview]
    exact preserved parent x
  | under_boundary _ ih =>
    simp only [write, Option.bind_eq_some_iff] at h
    obtain ⟨parent, -, changed, -, hwrite⟩ := h
    exact ih lawful.1 hwrite
  | under_lift _ ih =>
    simp only [write, Option.bind_eq_some_iff] at h
    obtain ⟨parent, -, hwrite⟩ := h
    exact ih lawful.1 hwrite
  | under_transparent _ ih => exact ih lawful h

end Lenses

section Claims

variable {α γ S : Type}

def raised (chain : Chain α γ) (handler : γ → Answer γ) (state : α) : Carriage α :=
  match chain.view state with
  | none => ⟨[], .noChange⟩
  | some x => carry state chain (answered (handler x))

/-- The turn of an event that is carried as far as `carriage` says. -/
def Delivered (chain : Chain α γ) (state : α) (boundaries : FiniteMap ℕ (BoundaryInfo S))
    (carriage : Carriage α) (turn : Turn α S) : Prop :=
  match carriage.outcome with
  | .noChange => turn = ⟨state, none, none, none, boundaries⟩
  | .refresh => ∃ owner, turn = ⟨state, some owner, none, none, boundaries⟩
  | .accepted place x =>
    ancestor chain carriage.consulted.length = ⟨_, place⟩ ∧
      match write place state x with
      | none => turn = ⟨state, none, none, none, boundaries⟩
      | some next =>
        turn.state = next ∧ turn.rendered = some (owner place) ∧
          SameTree boundaries turn.boundaries ∧
          (∀ started, turn.task = some started → started.1 = owner place) ∧
          (∀ stopped, turn.canceled = some stopped → stopped.1 = owner place) ∧
          (Lawful place → place.view next = some x ∧
            ∀ {ε : Type} (read : α → Option ε), Beside place read → read next = read state)
  | .rooted x =>
    carriage.consulted = policies chain ∧ turn.state = x ∧ turn.rendered = some 0 ∧
      SameTree boundaries turn.boundaries ∧ turn.task = none ∧ turn.canceled = none

/-- The action that the runtime is handed, with as many levels as policies answered. -/
theorem dispatch_carries (chain : Chain α γ) (handler : γ → Answer γ) (state : α)
    (boundaries : FiniteMap ℕ (BoundaryInfo S)) {x : γ} (hview : chain.view state = some x) :
    ∃ action : Action α, action.Settled ∧
      proposed action = final state (raised chain handler state).outcome ∧
      (proposed action ≠ .noChange →
        action.ownerLevels = (raised chain handler state).consulted.length) ∧
      dispatch chain (fun x => (handler x).action) state boundaries =
        (applyResolved action state chain.key boundaries).map
          fun turn => ((raised chain handler state).consulted, turn) := by
  have hpresent : (chain.view state).isSome := Option.isSome_of_eq_some hview
  have plain := Action.resolved_plain 0 _ (handler x).plain
  have hraised : raised chain handler state = carry state chain (answered (handler x)) := by
    rw [raised, hview]
  obtain ⟨settled, hconsulted, hproposed, hlevels⟩ := push_carries chain hpresent
    (handler x).action.resolveWork.answer (Action.resolved_settled 0 _)
  have hown : (handler x).action.resolveWork.answer.ownerLevels = 0 := plain.2
  rw [hown, Nat.zero_add] at hlevels
  rw [hraised]
  refine ⟨_, settled, hproposed, fun hne => hlevels (hproposed ▸ hne), ?_⟩
  have hnone : (handler x).action.resolveWork.consulted = [] := plain.1
  have hwork : (chain.fire (fun x => (handler x).action) state).resolveWork =
      (handler x).action.resolveWork >>= push state chain := by
    rw [fire_push, hview]
  rw [dispatch, if_pos hpresent]
  simp only [hwork, Work.bind_consulted, Work.bind_answer, applyAction, hnone, List.nil_append]
  rw [Action.resolve_settled settled, hconsulted]
  cases applyResolved (push state chain (handler x).action.resolveWork.answer).answer state chain.key
    boundaries <;> rfl

/-- Delegation reaches the boundary that the policies name: they are consulted one after the
other from the innermost on, and the last one's answer is applied there. -/
theorem delegation_delivered (chain : Chain α γ) (handler : γ → Answer γ) (state : α)
    (boundaries : FiniteMap ℕ (BoundaryInfo S)) (mounted : Mounted boundaries chain) :
    ∃ turn, dispatch chain (fun x => (handler x).action) state boundaries =
        .ok ((raised chain handler state).consulted, turn) ∧
      (raised chain handler state).consulted <+: policies chain ∧
      Delivered chain state boundaries (raised chain handler state) turn := by
  cases hview : chain.view state with
  | none =>
    refine ⟨⟨state, none, none, none, boundaries⟩, ?_, ?_, ?_⟩
    · simp only [dispatch, raised, hview, Option.isSome_none, Bool.false_eq_true, if_false]
    · simp only [raised, hview, List.nil_prefix]
    · simp only [Delivered, raised, hview]
  | some x =>
    have hraised : raised chain handler state = carry state chain (answered (handler x)) := by
      rw [raised, hview]
    have hleads : (raised chain handler state).consulted <+: policies chain := by
      rw [hraised]
      exact carry_prefix chain _
    obtain ⟨action, settled, hproposed, hlevels, hdispatch⟩ :=
      dispatch_carries chain handler state boundaries hview
    have turned {turn : Turn α S}
        (hturn : applyResolved action state chain.key boundaries = .ok turn)
        (delivered : Delivered chain state boundaries (raised chain handler state) turn) :
        ∃ turn, dispatch chain (fun x => (handler x).action) state boundaries =
            .ok ((raised chain handler state).consulted, turn) ∧
          (raised chain handler state).consulted <+: policies chain ∧
          Delivered chain state boundaries (raised chain handler state) turn := by
      refine ⟨turn, ?_, hleads, delivered⟩
      rw [hdispatch, hturn]
      rfl
    have owned (hchange : proposed action ≠ .noChange ∧ proposed action ≠ .refresh) :
        ∃ stale, SameTree boundaries stale ∧
          applyResolved action state chain.key boundaries = updateOwner action state
            (owner (ancestor chain (raised chain handler state).consulted.length).2) stale := by
      rw [← hlevels hchange.1]
      refine apply_owner chain mounted ?_ hchange
      rw [hlevels hchange.1]
      exact hleads.length_le
    cases houtcome : (raised chain handler state).outcome with
    | noChange =>
      rw [houtcome] at hproposed
      refine turned (apply_noChange chain.key settled hproposed) ?_
      simp only [Delivered, houtcome]
    | refresh =>
      rw [houtcome] at hproposed
      obtain ⟨owner, hturn⟩ := apply_refresh chain mounted settled hproposed
      refine turned hturn ?_
      simp only [Delivered, houtcome]
      exact ⟨owner, rfl⟩
    | rooted next =>
      rw [houtcome] at hproposed
      obtain ⟨stale, same, hturn⟩ := owned (by rw [hproposed]; simp [final])
      refine turned (hturn.trans (owner_delegate settled hproposed)) ?_
      simp only [Delivered, houtcome]
      refine ⟨?_, trivial, trivial, same, trivial, trivial⟩
      rw [hraised] at houtcome ⊢
      exact carry_rooted chain houtcome
    | accepted place y =>
      rw [houtcome, final] at hproposed
      have hplace : ancestor chain (raised chain handler state).consulted.length = ⟨_, place⟩ := by
        rw [hraised] at houtcome ⊢
        exact carry_accepted chain houtcome
      cases hwrite : write place state y with
      | none =>
        rw [hwrite] at hproposed
        refine turned (apply_noChange chain.key settled hproposed) ?_
        simp only [Delivered, houtcome, hwrite]
        exact ⟨hplace, trivial⟩
      | some next =>
        rw [hwrite] at hproposed
        obtain ⟨stale, same, hturn⟩ := owned (by rw [hproposed]; simp)
        rw [hplace] at hturn
        obtain ⟨task, canceled, hupdate, htask, hcanceled⟩ := owner_change settled hproposed
        refine turned (hturn.trans hupdate) ?_
        simp only [Delivered, houtcome, hwrite]
        refine ⟨hplace, trivial, trivial, same, htask, hcanceled, fun lawful => ⟨?_, ?_⟩⟩
        · exact view_write place lawful hwrite
        · intro ε read beside
          exact beside_write beside lawful hwrite

def savingChain : Chain (ℕ × ℕ) ℕ :=
  .boundary (.top .root) 1 (fun parent => some parent.1) (fun parent child => some (child, parent.2))
    fun candidate => ⟨Action.update (candidate.1, candidate.1), rfl⟩

def savingBoundaries : FiniteMap ℕ (BoundaryInfo ℕ) :=
  (FiniteMap.set ∅ 0 ⟨[0], none, none⟩).set 1 ⟨[0, 1], some ⟨false⟩, none⟩

theorem saving_mounted : Mounted savingBoundaries savingChain := by
  refine ⟨⟨none, ?_⟩, none, ?_⟩
  · decide
  · decide

/-- The counter proposes 2; its parent takes and saves it, and is rendered again. -/
theorem saving_delivered : ∃ turn,
    dispatch savingChain (fun x => Action.delegate (x + 1)) (1, 0) savingBoundaries =
      .ok ([1], turn) ∧ turn.state = (2, 2) ∧ turn.rendered = some 0 := by
  obtain ⟨turn, hturn, -, delivered⟩ := delegation_delivered savingChain
    (fun x => ⟨Action.delegate (x + 1), rfl⟩) (1, 0) savingBoundaries saving_mounted
  obtain ⟨-, hstate, hrendered, -⟩ := delivered
  exact ⟨turn, hturn, hstate, hrendered⟩

end Claims

end DelegatedTurns
