import RocGui.BoundaryChains

/-! What an action means: a proposal that goes from policy to policy until one of them
accepts it. The adapters carry every action so, and count the policies in its levels. -/
namespace Delegations

open Actions BoundaryChains

section Meaning

variable {α β γ : Type}

/-- What an action asks of the state it is about. -/
inductive Proposal (γ : Type) where
  | noChange
  | refresh
  | change (state : γ)
  | delegate (state : γ)

def proposed (action : Action γ) : Proposal γ :=
  match action.value with
  | .noChange | .deferred _ => .noChange
  | .refresh => .refresh
  | .update state | .task _ state _ | .cancel _ state => .change state
  | .delegate state => .delegate state

def answered (answer : Answer γ) : Proposal γ := proposed answer.action.resolveWork.answer

def write {α : Type} : {γ : Type} → Chain α γ → α → γ → Option α
  | _, .top _, _, x => some x
  | _, .boundary up _ _ set _, state, x =>
    (up.view state).bind fun parent => (set parent x).bind (write up state)
  | _, .lift up _ set, state, x => (up.view state).bind fun parent => write up state (set parent x)
  | _, .transparent up _, state, x => write up state x

def policies {α : Type} : {γ : Type} → Chain α γ → List ℕ
  | _, .top _ => []
  | _, .boundary up key .. => key :: policies up
  | _, .lift up .. | _, .transparent up _ => policies up

def topOwner : Top → ℕ
  | .root => 0
  | .transparent up _ => topOwner up
  | .keyed _ key => key

def owner {α : Type} : {γ : Type} → Chain α γ → ℕ
  | _, .top t => topOwner t
  | _, .boundary _ key .. => key
  | _, .lift up .. | _, .transparent up _ => owner up

/-- The place that the policy `k` boundaries up speaks for. -/
def ancestor {α : Type} : {γ : Type} → Chain α γ → ℕ → Σ δ : Type, Chain α δ
  | γ, chain, 0 => ⟨γ, chain⟩
  | _, .top t, _ + 1 => ⟨α, .top t⟩
  | _, .boundary up .., k + 1 => ancestor up k
  | _, .lift up .., k + 1 | _, .transparent up _, k + 1 => ancestor up (k + 1)

inductive Outcome (α : Type) : Type 1 where
  | noChange
  | refresh
  | accepted {δ : Type} (place : Chain α δ) (state : δ)
  /-- Delegated past every policy. -/
  | rooted (state : α)

structure Carriage (α : Type) : Type 1 where
  consulted : List ℕ
  outcome : Outcome α

/-- The meaning of an action at a place: a proposal goes from policy to policy until one of
them answers with something else. -/
def carry {α : Type} (state : α) : {γ : Type} → Chain α γ → Proposal γ → Carriage α
  | _, _, .noChange => ⟨[], .noChange⟩
  | _, _, .refresh => ⟨[], .refresh⟩
  | _, chain, .change x => ⟨[], .accepted chain x⟩
  | _, .top _, .delegate x => ⟨[], .rooted x⟩
  | _, .boundary up key _ set delegated, .delegate x =>
    match (up.view state).bind (set · x) with
    | none => ⟨[], .noChange⟩
    | some candidate =>
      let rest := carry state up (answered (delegated candidate))
      ⟨key :: rest.consulted, rest.outcome⟩
  | _, .lift up _ set, .delegate x =>
    match up.view state with
    | none => ⟨[], .noChange⟩
    | some parent => carry state up (.delegate (set parent x))
  | _, .transparent up _, .delegate x => carry state up (.delegate x)

def final {α : Type} (state : α) : Outcome α → Proposal α
  | .noChange => .noChange
  | .refresh => .refresh
  | .accepted place x =>
    match write place state x with
    | none => .noChange
    | some next => .change next
  | .rooted x => .delegate x

end Meaning

section Carriages

variable {α γ : Type} (state : α) (chain : Chain α γ)

@[simp] theorem carry_noChange : carry state chain .noChange = ⟨[], .noChange⟩ := by
  cases chain <;> rfl

@[simp] theorem carry_refresh : carry state chain .refresh = ⟨[], .refresh⟩ := by
  cases chain <;> rfl

@[simp] theorem carry_change (x : γ) : carry state chain (.change x) = ⟨[], .accepted chain x⟩ := by
  cases chain <;> rfl

end Carriages

section Adapters

variable {α β γ : Type} {project : β → Option γ} {set : β → γ → Option β}
  {delegated : Option (β → Work (Action β))} {action : Action γ} {parent : β}

structure Hands (work : Work (Action β)) (consulted : List ℕ) (proposal : Proposal β)
    (levels : ℕ) : Prop where
  settled : work.answer.Settled
  consulted : work.consulted = consulted
  proposed : proposed work.answer = proposal
  levels : proposal ≠ .noChange → work.answer.ownerLevels = levels

theorem hands_none (levels : ℕ) : Hands (pure Action.none : Work (Action β)) [] .noChange levels :=
  ⟨Action.settled_none, rfl, rfl, fun h => absurd rfl h⟩

theorem hands_pure {action : Action β} {levels : ℕ} (settled : action.Settled)
    (h : action.ownerLevels = levels) : Hands (pure action) [] (proposed action) levels :=
  ⟨settled, rfl, rfl, fun _ => h⟩

theorem hands_bind {work : Work (Action γ)} {next : Action γ → Work (Action β)}
    {before after : List ℕ} {proposal : Proposal γ} {final : Proposal β} {levels levels' : ℕ}
    (h : Hands work before proposal levels)
    (hnext : ∀ action, action.Settled → Delegations.proposed action = proposal →
      (proposal ≠ .noChange → action.ownerLevels = levels) →
      Hands (next action) after final levels') :
    Hands (work >>= next) (before ++ after) final levels' := by
  obtain ⟨hsettled, hconsulted, hproposed, hlevels⟩ := hnext _ h.settled h.proposed h.levels
  refine ⟨hsettled, ?_, hproposed, hlevels⟩
  rw [Work.bind_consulted, h.consulted, hconsulted]

theorem adapt_noChange (settled : action.Settled) (h : proposed action = .noChange) (levels : ℕ) :
    Hands (Action.adaptWork project set delegated action parent) [] .noChange levels := by
  obtain ⟨value, own⟩ := action
  cases value with
  | noChange => exact hands_none levels
  | deferred resume => exact absurd rfl (settled resume)
  | _ => cases h

theorem adapt_refresh (settled : action.Settled) (h : proposed action = .refresh) :
    Hands (Action.adaptWork project set delegated action parent) [] .refresh
      action.ownerLevels := by
  obtain ⟨value, own⟩ := action
  cases value with
  | refresh => exact hands_pure (fun _ h => by cases h) (Nat.zero_add own)
  | deferred resume => exact absurd rfl (settled resume)
  | _ => cases h

theorem adapt_change {child : γ} (settled : action.Settled) (h : proposed action = .change child) :
    Hands (Action.adaptWork project set delegated action parent) []
      (match set parent child with
        | none => .noChange
        | some next => .change next) action.ownerLevels := by
  obtain ⟨value, own⟩ := action
  cases value with
  | update state | task key state run | cancel key state =>
    obtain rfl : state = child := by simpa [proposed, Action.value] using h
    simp only [Action.adaptWork, Action.adaptFrom]
    cases set parent state with
    | none => exact hands_none _
    | some next => exact hands_pure (fun _ h => by cases h) (Nat.zero_add own)
  | deferred resume => exact absurd rfl (settled resume)
  | _ => cases h

theorem delegate_value {child : γ} (settled : action.Settled)
    (h : proposed action = .delegate child) : ∃ own, action = .mk (.delegate child) own := by
  obtain ⟨value, own⟩ := action
  cases value with
  | delegate state =>
    obtain rfl : state = child := by simpa [proposed, Action.value] using h
    exact ⟨own, rfl⟩
  | deferred resume => exact absurd rfl (settled resume)
  | _ => cases h

theorem adapt_lifted {child : γ} (settled : action.Settled)
    (h : proposed action = .delegate child) :
    Hands (Action.adaptWork project set none action parent) []
      (match set parent child with
        | none => .noChange
        | some next => .delegate next) action.ownerLevels := by
  obtain ⟨own, rfl⟩ := delegate_value settled h
  simp only [Action.adaptWork, Action.adaptFrom]
  cases set parent child with
  | none => exact hands_none _
  | some next => exact hands_pure (fun _ h => by cases h) (Nat.zero_add own)

theorem adapt_delegated {child : γ} {candidate : β} {key : ℕ} {handle : β → Answer β}
    (settled : action.Settled) (h : proposed action = .delegate child)
    (hset : set parent child = some candidate) :
    Hands (Action.adaptWork project set (some (Action.consult key handle)) action parent) [key]
      (answered (handle candidate)) (action.ownerLevels + 1) := by
  obtain ⟨own, rfl⟩ := delegate_value settled h
  have plain := Action.resolved_plain 0 _ (handle candidate).plain
  have hwork : (handle candidate).action.resolveWork.consulted = [] := plain.1
  have hlevels : (handle candidate).action.resolveWork.answer.ownerLevels = 0 := plain.2
  simp only [Action.adaptWork, Action.adaptFrom, hset, Nat.zero_add]
  refine ⟨Action.resolved_settled 0 _, ?_, rfl, fun _ => ?_⟩
  · change ([key] ++ (handle candidate).action.resolveWork.consulted) ++ [] = [key]
    rw [hwork]
    rfl
  · change own + (handle candidate).action.resolveWork.answer.ownerLevels + 1 = own + 1
    rw [hlevels]

theorem adapt_removed {child : γ} (settled : action.Settled)
    (h : proposed action = .delegate child) (hset : set parent child = none) (levels : ℕ) :
    Hands (Action.adaptWork project set delegated action parent) [] .noChange levels := by
  obtain ⟨own, rfl⟩ := delegate_value settled h
  simp only [Action.adaptWork, Action.adaptFrom, hset]
  exact hands_none levels

end Adapters

section Carrying

variable {α γ : Type} {state : α}

def push {α : Type} (state : α) : {γ : Type} → Chain α γ → Action γ → Work (Action α)
  | _, .top _, action => pure action
  | _, .boundary up key project set delegated, action =>
    match up.view state with
    | none => pure .none
    | some parent =>
      Action.adaptWork project set (some (Action.consult key delegated)) action parent >>= push state up
  | _, .lift up get set, action =>
    match up.view state with
    | none => pure .none
    | some parent =>
      Action.adaptWork (fun parent => some (get parent)) (fun parent child => some (set parent child))
        none action parent >>= push state up
  | _, .transparent up _, action => push state up action

theorem push_none (chain : Chain α γ) : push state chain .none = pure .none := by
  induction chain with
  | top t => rfl
  | transparent up key ih => exact ih
  | boundary up key project set delegated ih | lift up get set ih =>
    rw [push]
    cases up.view state with
    | none => rfl
    | some parent => exact ih

theorem event_resolves {β γ : Type} (handler : γ → Action γ) (project : β → Option γ)
    (set : β → γ → Option β) (delegated : Option (β → Work (Action β))) (parent : β) :
    (adaptEvent handler project (Action.adaptWork project set delegated) parent).resolveWork =
      match project parent with
      | none => pure .none
      | some child => (handler child).resolveWork >>= fun resolved =>
        Action.adaptWork project set delegated resolved parent := by
  rw [adaptEvent, Action.deferred, Action.resolve_deferred]
  simp only [Nat.zero_add]
  cases project parent with
  | none => rfl
  | some child =>
    have settled : (Action.adaptWork project set delegated (handler child) parent).answer.Settled :=
      Action.adapted_settled 0 parent (handler child)
    exact (Action.work_settled settled).trans (Action.adapt_resolves 0 parent (handler child))

/-- Behind its adapters a handler is reached with the state of its place, and what it
answers is carried up. -/
theorem fire_push (chain : Chain α γ) (handler : γ → Action γ) :
    (chain.fire handler state).resolveWork =
      match chain.view state with
      | none => pure .none
      | some x => (handler x).resolveWork >>= push state chain := by
  induction chain with
  | top t => exact (bind_pure _).symm
  | transparent up key ih => exact ih handler
  | boundary up key project set delegated ih =>
    rw [Chain.fire, ih, Chain.view]
    cases hview : up.view state with
    | none => rfl
    | some parent =>
      simp only [event_resolves, Option.bind_eq_bind, Option.bind_some]
      cases project parent with
      | none => exact push_none up
      | some child =>
        rw [bind_assoc]
        refine bind_congr fun action => ?_
        rw [push, hview]
  | lift up get set ih =>
    rw [Chain.fire, ih, Chain.view]
    cases hview : up.view state with
    | none => rfl
    | some parent =>
      simp only [event_resolves, Option.map_some]
      rw [bind_assoc]
      refine bind_congr fun action => ?_
      rw [push, hview]

def Carries (state : α) (chain : Chain α γ) : Prop := ∀ action : Action γ, action.Settled →
  Hands (push state chain action) (carry state chain (proposed action)).consulted
    (final state (carry state chain (proposed action)).outcome)
    (action.ownerLevels + (carry state chain (proposed action)).consulted.length)

theorem hands_up {β : Type} {up : Chain α β} (ih : Carries state up) {work : Work (Action β)}
    {consulted : List ℕ} {proposal : Proposal β} {levels : ℕ}
    (h : Hands work consulted proposal levels) :
    Hands (work >>= push state up) (consulted ++ (carry state up proposal).consulted)
      (final state (carry state up proposal).outcome)
      (levels + (carry state up proposal).consulted.length) := by
  refine hands_bind h fun action settled hproposed hlevels => ?_
  obtain ⟨hsettled, hconsulted, hfinal, hcount⟩ := ih action settled
  rw [hproposed] at hconsulted hfinal hcount
  refine ⟨hsettled, hconsulted, hfinal, fun hne => ?_⟩
  rw [hcount hne, hlevels]
  rintro rfl
  exact hne (by rw [carry_noChange]; rfl)

theorem carries_plain {β : Type} {up : Chain α β} {chain : Chain α γ} {parent : β}
    {project : β → Option γ} {set : β → γ → Option β} {delegated : Option (β → Work (Action β))}
    {action : Action γ} (carries : Carries state up)
    (hwrite : ∀ x, write chain state x = (set parent x).bind (write up state))
    (settled : action.Settled) (hplain : ∀ x, proposed action ≠ .delegate x) :
    Hands (Action.adaptWork project set delegated action parent >>= push state up)
      (carry state chain (proposed action)).consulted
      (final state (carry state chain (proposed action)).outcome)
      (action.ownerLevels + (carry state chain (proposed action)).consulted.length) := by
  have handed {consulted : List ℕ} {proposal : Proposal β} {levels : ℕ}
      (h : Hands (Action.adaptWork project set delegated action parent) consulted proposal levels) :=
    hands_up carries h
  cases hp : proposed action with
  | noChange =>
    have h := handed (adapt_noChange settled hp action.ownerLevels)
    rw [carry_noChange] at h ⊢
    exact h
  | refresh =>
    have h := handed (adapt_refresh settled hp)
    rw [carry_refresh] at h ⊢
    exact h
  | change child =>
    have h := handed (adapt_change settled hp)
    rw [carry_change, final, hwrite]
    cases hset : set parent child with
    | none =>
      simp only [hset, carry_noChange] at h
      exact h
    | some next =>
      simp only [hset, carry_change, final] at h
      exact h
  | delegate child => exact absurd hp (hplain child)

theorem push_carries (chain : Chain α γ) (hview : (chain.view state).isSome) :
    Carries state chain := by
  induction chain with
  | top t =>
    intro action settled
    have here : Hands (pure action) [] (proposed action) action.ownerLevels :=
      hands_pure settled rfl
    cases hp : proposed action <;> rw [hp] at here <;> exact here
  | transparent up key ih =>
    intro action settled
    have h := ih hview action settled
    cases hp : proposed action <;> rw [hp] at h
    case delegate x => exact h
    all_goals
      simp only [carry_noChange, carry_refresh, carry_change] at h ⊢
      exact h
  | boundary up key project set delegated ih =>
    intro action settled
    rw [Chain.view, Option.bind_eq_bind] at hview
    obtain ⟨parent, hup⟩ : ∃ parent, up.view state = some parent := by
      rw [← Option.isSome_iff_exists]
      exact Option.isSome_of_isSome_bind hview
    have carries := ih (Option.isSome_of_eq_some hup)
    rw [push, hup]
    by_cases hplain : ∀ x, proposed action ≠ .delegate x
    · exact carries_plain carries (fun x => by rw [write, hup, Option.bind_some]) settled hplain
    simp only [not_forall, not_not] at hplain
    obtain ⟨child, hp⟩ := hplain
    rw [hp, carry, hup, Option.bind_some]
    have handed {consulted : List ℕ} {proposal : Proposal _} {levels : ℕ}
        (h : Hands (Action.adaptWork project set (some (Action.consult key delegated)) action parent) consulted
          proposal levels) := hands_up carries h
    cases hset : set parent child with
    | none =>
      have h := handed (adapt_removed settled hp hset action.ownerLevels)
      rw [carry_noChange] at h
      exact h
    | some candidate =>
      have h := handed (adapt_delegated settled hp hset)
      dsimp only
      rw [List.length_cons, Nat.add_comm _ 1, ← Nat.add_assoc]
      exact h
  | lift up get set ih =>
    intro action settled
    rw [Chain.view, Option.isSome_map] at hview
    obtain ⟨parent, hup⟩ := Option.isSome_iff_exists.mp hview
    have carries := ih hview
    rw [push, hup]
    by_cases hplain : ∀ x, proposed action ≠ .delegate x
    · exact carries_plain carries (fun x => by rw [write, hup]; rfl) settled hplain
    simp only [not_forall, not_not] at hplain
    obtain ⟨child, hp⟩ := hplain
    rw [hp, carry, hup]
    exact hands_up carries (adapt_lifted settled hp)

end Carrying

section Places

variable {α γ : Type} {state : α}

theorem ancestor_zero (chain : Chain α γ) : ancestor chain 0 = ⟨γ, chain⟩ := by
  cases chain <;> rfl

theorem carry_prefix (chain : Chain α γ) (proposal : Proposal γ) :
    (carry state chain proposal).consulted <+: policies chain := by
  induction chain with
  | top t => cases proposal <;> exact List.nil_prefix
  | boundary up key project set delegated ih =>
    cases proposal with
    | delegate x =>
      rw [carry]
      cases (up.view state).bind (set · x) with
      | none => exact List.nil_prefix
      | some candidate => exact (List.prefix_cons_inj key).mpr (ih _)
    | _ => exact List.nil_prefix
  | lift up get set ih =>
    cases proposal with
    | delegate x =>
      rw [carry]
      cases up.view state with
      | none => exact List.nil_prefix
      | some parent => exact ih _
    | _ => exact List.nil_prefix
  | transparent up key ih =>
    cases proposal with
    | delegate x => exact ih _
    | _ => exact List.nil_prefix

theorem delegate_consults {δ : Type} {place : Chain α δ} {x : δ} (chain : Chain α γ) {y : γ}
    (h : (carry state chain (.delegate y)).outcome = .accepted place x) :
    ∃ k, (carry state chain (.delegate y)).consulted.length = k + 1 := by
  induction chain with
  | top t => cases h
  | boundary up key project set delegated ih =>
    rw [carry] at h ⊢
    cases hset : (up.view state).bind (set · y) with
    | none =>
      rw [hset] at h
      cases h
    | some candidate => exact ⟨_, rfl⟩
  | lift up get set ih =>
    rw [carry] at h ⊢
    cases hup : up.view state with
    | none =>
      rw [hup] at h
      cases h
    | some parent =>
      rw [hup] at h
      exact ih h
  | transparent up key ih => exact ih h

theorem carry_accepted {δ : Type} {place : Chain α δ} {x : δ} (chain : Chain α γ)
    {proposal : Proposal γ} (h : (carry state chain proposal).outcome = .accepted place x) :
    ancestor chain (carry state chain proposal).consulted.length = ⟨δ, place⟩ := by
  induction chain with
  | top t =>
    cases proposal with
    | change y =>
      cases h
      rfl
    | _ => cases h
  | boundary up key project set delegated ih =>
    cases proposal with
    | delegate y =>
      rw [carry] at h ⊢
      cases hset : (up.view state).bind (set · y) with
      | none =>
        rw [hset] at h
        cases h
      | some candidate =>
        rw [hset] at h
        exact ih h
    | change y =>
      cases h
      rfl
    | _ => cases h
  | lift up get set ih =>
    cases proposal with
    | delegate y =>
      rw [carry] at h ⊢
      cases hup : up.view state with
      | none =>
        rw [hup] at h
        cases h
      | some parent =>
        rw [hup] at h
        obtain ⟨k, hk⟩ := delegate_consults up h
        have hplace := ih h
        dsimp only
        rw [hk] at hplace ⊢
        exact hplace
    | change y =>
      cases h
      rfl
    | _ => cases h
  | transparent up key ih =>
    cases proposal with
    | delegate y =>
      obtain ⟨k, hk⟩ := delegate_consults up h
      have hplace := ih h
      rw [carry, hk]
      rw [hk] at hplace
      exact hplace
    | change y =>
      cases h
      rfl
    | _ => cases h

theorem carry_rooted {x : α} (chain : Chain α γ) {proposal : Proposal γ}
    (h : (carry state chain proposal).outcome = .rooted x) :
    (carry state chain proposal).consulted = policies chain := by
  induction chain with
  | top t =>
    cases proposal with
    | delegate y => rfl
    | _ => cases h
  | boundary up key project set delegated ih =>
    cases proposal with
    | delegate y =>
      rw [carry] at h ⊢
      cases hset : (up.view state).bind (set · y) with
      | none =>
        rw [hset] at h
        cases h
      | some candidate =>
        rw [hset] at h
        exact congrArg (key :: ·) (ih h)
    | _ => cases h
  | lift up get set ih =>
    cases proposal with
    | delegate y =>
      rw [carry] at h ⊢
      cases hup : up.view state with
      | none =>
        rw [hup] at h
        cases h
      | some parent =>
        rw [hup] at h
        exact ih h
    | _ => cases h
  | transparent up key ih =>
    cases proposal with
    | delegate y => exact ih h
    | _ => cases h

end Places

end Delegations
