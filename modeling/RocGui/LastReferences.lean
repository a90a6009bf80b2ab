import RocGui.HandleTables

/-! Calls that run whole, and what they answer when a reference they consume is the last. -/
namespace LastReferences

open FiniteMaps Grants GrantRuns AccessSurface Transitions ThreadSystems RecentFormats RecentStores
open RecentCalls HandleStores HandleCalls HandleRuns HandleTables
open RecentEntries (EntryKind Unavailable)

section Answers

variable {R : Family → Type} {V : Type} (last : Family → Bool) (s : Host (Payload R))

def drop (family : Family) (number : ℕ) : Host (Payload R) :=
  if last family then routeDealloc s family number else s

def lookUp (part : Part R V) : Except Failure (Grant × Payload R part.1.family) :=
  match (accept part.1.family.kind part.2 s.registry part.1.needs).1 with
  | .error refusal => .error (part.1.refused refusal)
  | .ok grant => match s.payloads part.1.family part.2 with
    | none => .error part.1.missing
    | some payload => .ok (grant, payload)

def consult (operation : Operation (Payload R) V)
    (looked : Except Failure (Grant × Payload R operation.family)) :
    Except Failure (Grant × Outcome (Payload R) V) :=
  match operation.early, operation.checked, looked with
  | some failure, _, _ | none, some failure, _ | none, none, .error failure => .error failure
  | none, none, .ok (grant, payload) =>
    let payload := if last operation.family && !operation.late then operation.dropped payload else payload
    match operation.spent payload with
    | some failure => .error failure
    | none => match operation.use payload with
      | .error failure => .error failure
      | .ok outcome => .ok (grant, outcome)

/-- One handle's part of a call: it is released before it is looked up, or after. -/
def runPart (part : Part R V) : Except Failure (Grant × Outcome (Payload R) V) × Host (Payload R) :=
  let asks (s : Host (Payload R)) :=
    registryStep s (.accept part.1.family.kind part.2 part.1.needs)
  if part.1.late then
    let s := drop last s part.1.family part.2
    (consult last part.1 (lookUp s part), asks s)
  else (consult last part.1 (lookUp s part), drop last (asks s) part.1.family part.2)

def settle (goOn : Value V → Host (Payload R) → Answer V) :
    Except Failure (Grant × Outcome (Payload R) V) × Host (Payload R) → Answer V
  | (.error failure, _) => .failure failure
  | (.ok (_, .value value), s) => goOn value s
  | (.ok (_, .derived family _), s) => .handle family (s.next family.kind)
  | (.ok (grant, .watch revoked watch), s) =>
    if isRevoked grant.id.kind grant.id.number s.registry then .failure revoked
    else match watch with
      | .error failure => .failure failure
      | .ok _ => .handle .watch (s.next Family.watch.kind)

def answerParts (s : Host (Payload R)) (part : Part R V) : List (Part R V) → Answer V
  | [] => settle (fun value _ => .value value) (runPart last s part)
  | part' :: rest => settle (fun _ s => answerParts s part' rest) (runPart last s part)

def answerRemember (family : Family) (number : ℕ) (metadata : Metadata) : Answer V :=
  match (RecentCalls.remember (drop last s family number).lists family.kind number
    fun path => (metadata path).mapError unavailable).1 with
  | .ok () => .value .done
  | .error reason => .failure (.remember reason)

/-- The answer of a call of which nothing else runs in between. -/
def answerOf (validName : String → Bool) (call : HostCall R V) : Answer V :=
  match call.plan validName with
  | .remember family number metadata => answerRemember last s family number metadata
  | .one operation number => answerParts last s (operation, number) []
  | .two first number second number' =>
    answerParts last s (first, number) [(second, number')]

end Answers

section Lookups

variable {R : Family → Type} {V : Type} {last : Family → Bool} {s s' : Host (Payload R)}
  {part : Part R V} {family : Family} {number : ℕ}

/-- Two hosts that a part of a call cannot tell apart. -/
structure Alike (s s' : Host (Payload R)) (family : Family) (number : ℕ) : Prop where
  grant : s'.registry.grants.get ⟨family.kind, number⟩ = s.registry.grants.get ⟨family.kind, number⟩
  withdrawn : s'.registry.revokedRoots = s.registry.revokedRoots
  payload : s'.payloads family number = s.payloads family number
  next : s'.next = s.next

theorem alike_trans {s'' : Host (Payload R)} (h : Alike s s' family number) (h' : Alike s' s'' family number) :
    Alike s s'' family number :=
  ⟨h'.grant.trans h.grant, h'.withdrawn.trans h.withdrawn, h'.payload.trans h.payload,
    h'.next.trans h.next⟩

theorem alike_accept (s : Host (Payload R)) (family : Family) (number : ℕ) (kind : Kind) (number' : ℕ)
    (needs : Rights) : Alike s (registryStep s (.accept kind number' needs)) family number where
  grant := by
    change (accept kind number' s.registry needs).2.grants.get _ = _
    rw [(accept_cases kind number' s.registry needs).1]
  withdrawn := (accept_cases kind number' s.registry needs).2.1
  payload := rfl
  next := rfl

theorem registry_routeDealloc (s : Host (Payload R)) (family : Family) (number : ℕ) :
    (routeDealloc s family number).registry = Grants.release family.kind number s.registry := by
  rw [Host.registry, grants_routeDealloc]
  rfl

theorem alike_drop {family' : Family} {number' : ℕ} (hne : family' ≠ family) (hid :
    (⟨family.kind, number⟩ : GrantId) ≠ ⟨family'.kind, number'⟩) :
    Alike s (drop last s family' number') family number := by
  unfold drop
  split
  · refine ⟨?_, ?_, ?_, next_routeDealloc _ _ _⟩
    · rw [registry_routeDealloc]
      exact get_released (s := s.lists.grants) hid
    · rw [registry_routeDealloc]
      exact release_roots _ _ _
    · rw [payloads_routeDealloc]
      exact payloads_setPayload _ _ _ _ (.inl hne.symm)
  · exact ⟨rfl, rfl, rfl, rfl⟩

theorem next_drop (s : Host (Payload R)) (family : Family) (number : ℕ) :
    (drop last s family number).next = s.next := by
  unfold drop
  split
  · exact next_routeDealloc _ _ _
  · rfl

theorem accept_congr {kind : Kind} {r r' : Registry} {needs : Rights}
    (hgrant : r'.grants.get ⟨kind, number⟩ = r.grants.get ⟨kind, number⟩)
    (hroots : r'.revokedRoots = r.revokedRoots) :
    (accept kind number r' needs).1 = (accept kind number r needs).1 := by
  simp only [accept, hgrant, hroots]
  split
  · rfl
  · split
    · rfl
    · split <;> rfl

theorem lookUp_congr (h : Alike s s' part.1.family part.2) : lookUp s' part = lookUp s part := by
  rw [lookUp, lookUp, accept_congr h.grant h.withdrawn, h.payload]

theorem get_routeDealloc (s : Host (Payload R)) (family : Family) (number : ℕ) :
    (routeDealloc s family number).registry.grants.get ⟨family.kind, number⟩ = none := by
  rw [registry_routeDealloc, Grants.release]
  split
  · rw [FiniteMap.get_remove, if_pos rfl]
  · rename_i hnone
    exact Option.not_isSome_iff_eq_none.mp hnone

theorem lookUp_dropped (h : last part.1.family = true) :
    lookUp (drop last s part.1.family part.2) part = .error (part.1.refused .unknown) := by
  rw [drop, if_pos h, lookUp]
  simp [accept, get_routeDealloc]

theorem lookUp_ok {grant : Grant} {payload : Payload R part.1.family}
    (runs : Reachable grantSystem s.lists.grants) (h : lookUp s part = .ok (grant, payload)) :
    grant.id = ⟨part.1.family.kind, part.2⟩ ∧
      s.registry.grants.get ⟨part.1.family.kind, part.2⟩ = some grant ∧ grant.revoked = false ∧
      grant.root ∉ s.registry.revokedRoots := by
  unfold lookUp at h
  cases haccept : (accept part.1.family.kind part.2 s.registry part.1.needs).1 with
  | error refusal => simp [haccept] at h
  | ok grant' =>
    simp only [haccept] at h
    cases hpayload : s.payloads part.1.family part.2 with
    | none => simp [hpayload] at h
    | some payload' =>
      simp only [hpayload] at h
      cases h
      have hlive := (accept_cases part.1.family.kind part.2 s.registry part.1.needs).2.2 _ haccept
      exact ⟨((roots_placed runs).named _ _ hlive.1).1, hlive⟩

end Lookups

section Parts

variable {R : Family → Type} {V : Type} {last : Family → Bool} {s s' : Host (Payload R)}
  {part : Part R V} {rest : List (Part R V)}

/-- Another reference keeps each handle alive. -/
def elsewhere (_ : Family) : Bool := false

theorem drop_elsewhere (s : Host (Payload R)) (family : Family) (number : ℕ) : drop elsewhere s family number = s :=
  rfl

theorem consult_ok {operation : Operation (Payload R) V}
    {looked : Except Failure (Grant × Payload R operation.family)} {grant : Grant}
    {outcome : Outcome (Payload R) V} (h : consult last operation looked = .ok (grant, outcome)) :
    (∃ payload, looked = .ok (grant, payload)) ∧ ∃ payload, operation.use payload = .ok outcome := by
  unfold consult at h
  cases hearly : operation.early with
  | some failure => simp [hearly] at h
  | none =>
    cases hchecked : operation.checked with
    | some failure => simp [hearly, hchecked] at h
    | none =>
      cases looked with
      | error failure => simp [hearly, hchecked] at h
      | ok found =>
        obtain ⟨grant', payload⟩ := found
        simp only [hearly, hchecked] at h
        split at h
        · cases h
        · split at h
          · cases h
          · rename_i huse
            cases h
            exact ⟨⟨payload, rfl⟩, _, huse⟩

/-- A payload that does not know of its handle is as good as before. -/
theorem consult_congr {operation : Operation (Payload R) V}
    {looked : Except Failure (Grant × Payload R operation.family)}
    (h : operation.late = true ∨ ∀ payload, operation.dropped payload = payload) :
    consult last operation looked = consult elsewhere operation looked := by
  have same (payload : Payload R operation.family) :
      (if last operation.family && !operation.late then operation.dropped payload else payload) = payload := by
    rcases h with h | h
    · simp [h]
    · rw [h]
      split <;> rfl
  unfold consult
  cases operation.early with
  | some failure => rfl
  | none =>
    cases operation.checked with
    | some failure => rfl
    | none =>
      cases looked with
      | error failure => rfl
      | ok found =>
        simp only [same, elsewhere, Bool.false_and, Bool.false_eq_true, if_false]

theorem settle_congr {outcome : Except Failure (Grant × Outcome (Payload R) V)}
    {goOn goOn' : Value V → Host (Payload R) → Answer V} (hnext : s'.next = s.next)
    (hlive : ∀ grant revoked watch, outcome = .ok (grant, .watch revoked watch) →
      isRevoked grant.id.kind grant.id.number s.registry = false ∧
        isRevoked grant.id.kind grant.id.number s'.registry = false)
    (hgoOn : ∀ value, goOn value s = goOn' value s') :
    settle goOn (outcome, s) = settle goOn' (outcome, s') := by
  cases outcome with
  | error failure => rfl
  | ok found =>
    obtain ⟨grant, outcome⟩ := found
    cases outcome with
    | value value => exact hgoOn value
    | derived family payload => exact congrArg (fun next => Answer.handle family (next family.kind)) hnext.symm
    | watch revoked watch =>
      obtain ⟨h, h'⟩ := hlive grant revoked watch rfl
      simp only [settle, h, h', Bool.false_eq_true, if_false, hnext]

theorem isRevoked_live {kind : Kind} {number : ℕ} {r : Registry} {grant : Grant}
    (hget : r.grants.get ⟨kind, number⟩ = some grant) (hlive : grant.revoked = false)
    (hroot : grant.root ∉ r.revokedRoots) : isRevoked kind number r = false := by
  simp [isRevoked, hget, Grant.Live, hlive, hroot]

theorem isRevoked_unknown {kind : Kind} {number : ℕ} {r : Registry}
    (hget : r.grants.get ⟨kind, number⟩ = none) : isRevoked kind number r = false := by
  simp [isRevoked, hget]

theorem runPart_early (last : Family → Bool) (s : Host (Payload R)) (hlate : part.1.late = false)
    (hdropped : ∀ payload, part.1.dropped payload = payload) :
    runPart last s part = (consult elsewhere part.1 (lookUp s part),
      drop last (registryStep s (.accept part.1.family.kind part.2 part.1.needs)) part.1.family part.2) := by
  rw [runPart, if_neg (by simp [hlate]), consult_congr (.inr hdropped)]

theorem settle_early (part : Part R V) {goOn goOn' : Value V → Host (Payload R) → Answer V}
    (runs : Reachable grantSystem s.lists.grants) (hlate : part.1.late = false)
    (hdropped : ∀ payload, part.1.dropped payload = payload)
    (hgoOn : ∀ value, goOn value (runPart last s part).2 = goOn' value (runPart elsewhere s part).2) :
    settle goOn (runPart last s part) = settle goOn' (runPart elsewhere s part) := by
  have hrun (last : Family → Bool) := runPart_early last s hlate hdropped
  rw [hrun last, hrun elsewhere] at hgoOn ⊢
  refine settle_congr ?_ (fun grant revoked watch hwatch => ?_) hgoOn
  · rw [next_drop, next_drop]
  · obtain ⟨⟨payload, hlooked⟩, -⟩ := consult_ok hwatch
    obtain ⟨hid, hget, hlive, hroot⟩ := lookUp_ok runs hlooked
    rw [hid]
    have alike := alike_accept s part.1.family part.2 part.1.family.kind part.2 part.1.needs
    have before : isRevoked part.1.family.kind part.2
        (registryStep s (.accept part.1.family.kind part.2 part.1.needs)).registry = false :=
      isRevoked_live (alike.grant.trans hget) hlive (alike.withdrawn ▸ hroot)
    refine ⟨?_, before⟩
    unfold drop
    split
    · exact isRevoked_unknown (get_routeDealloc _ _ _)
    · exact before

end Parts

section Held

variable {R : Family → Type} {V : Type} {last : Family → Bool} {s : Shared R} {part : Part R V}
  {rest : List (Part R V)} {root : GrantId}

def Recorded (s : Host (Payload R)) (family : Family) (number : ℕ) : Prop :=
  s.registry.grants.get ⟨family.kind, number⟩ ≠ none

def Live (s : Host (Payload R)) (family : Family) (number : ℕ) : Prop :=
  ∃ grant, s.registry.grants.get ⟨family.kind, number⟩ = some grant ∧
    grant.root ∉ s.registry.revokedRoots

theorem lookUp_held (part : Part R V) (tables : Tables s)
    (held : s.holds ⟨part.1.family.kind, part.2⟩ = some ⟨part.1.family, root⟩)
    (hneeds : part.1.family.rights.Contains part.1.needs) :
    (¬Recorded s.host part.1.family part.2 ∧ ¬Live s.host part.1.family part.2 ∧
        lookUp s.host part = .error (part.1.refused .unknown)) ∨
      Recorded s.host part.1.family part.2 ∧
        (¬Live s.host part.1.family part.2 ∧ lookUp s.host part = .error (part.1.refused .revoked) ∨
          Live s.host part.1.family part.2 ∧ ∃ grant payload,
            s.host.payloads part.1.family part.2 = some payload ∧
              lookUp s.host part = .ok (grant, payload)) := by
  rcases accept_held tables held hneeds with ⟨hget, haccept⟩ | ⟨g, hget, hroot, -, hcases⟩
  · refine .inl ⟨fun h => h hget, fun ⟨grant, hgrant, _⟩ => ?_, by rw [lookUp, haccept]⟩
    cases hget.symm.trans hgrant
  · refine .inr ⟨fun h => ?_, ?_⟩
    · cases hget.symm.trans h
    · rcases hcases with ⟨hrevoked, haccept⟩ | ⟨hlive, -, haccept⟩
      · refine .inl ⟨fun ⟨grant, hgrant, hlive⟩ => ?_, by rw [lookUp, haccept]⟩
        obtain rfl := Option.some.inj (hget.symm.trans hgrant)
        exact hlive (hroot ▸ hrevoked)
      · obtain ⟨payload, hpayload⟩ := Option.isSome_iff_exists.mp (tables.stored _ _ held)
        dsimp only at hpayload
        exact .inr ⟨⟨g, hget, hroot ▸ hlive⟩, g, payload, hpayload, by rw [lookUp, haccept, hpayload]⟩

theorem answer_late (h : last part.1.family = true) (hlate : part.1.late = true)
    (hearly : part.1.early = none) (hchecked : part.1.checked = none) (s : Host (Payload R))
    (rest : List (Part R V)) : answerParts last s part rest = .failure (part.1.refused .unknown) := by
  have hrun : (runPart last s part).1 = .error (part.1.refused .unknown) := by
    rw [runPart, if_pos hlate]
    change consult last part.1 (lookUp _ part) = _
    rw [lookUp_dropped h]
    simp only [consult, hearly, hchecked]
  cases rest with
  | nil =>
    rw [answerParts, ← Prod.mk.eta (p := runPart last s part), hrun]
    rfl
  | cons part' rest =>
    rw [answerParts, ← Prod.mk.eta (p := runPart last s part), hrun]
    rfl

/-- An early failure is all that is answered. -/
theorem answer_early {failure : Failure} (hearly : part.1.early = some failure) (s : Host (Payload R)) :
    answerParts last s part rest = .failure failure := by
  have hrun : (runPart last s part).1 = .error failure := by
    unfold runPart
    split <;> simp [consult, hearly]
  cases rest with
  | nil =>
    rw [answerParts, ← Prod.mk.eta (p := runPart last s part), hrun]
    rfl
  | cons part' rest =>
    rw [answerParts, ← Prod.mk.eta (p := runPart last s part), hrun]
    rfl

/-- What a part never answers by itself: that its handle is unknown. -/
structure Distinct (operation : Operation (Payload R) V) : Prop where
  checked : operation.checked = none
  spent : ∀ payload, operation.spent payload ≠ some (operation.refused .unknown)
  use : ∀ payload, operation.use payload ≠ .error (operation.refused .unknown)
  watch : ∀ payload revoked watch, operation.use payload = .ok (.watch revoked watch) →
    watch ≠ .error (operation.refused .unknown)

/-- A call that drops its reference first answers the same only when it would not have found
its handle. -/
theorem answer_late_iff (part : Part R V) (tables : Tables s)
    (held : s.holds ⟨part.1.family.kind, part.2⟩ = some ⟨part.1.family, root⟩)
    (hneeds : part.1.family.rights.Contains part.1.needs) (hlast : last part.1.family = true)
    (hlate : part.1.late = true) (hearly : part.1.early = none) (distinct : Distinct part.1) :
    answerParts last s.host part [] = answerParts elsewhere s.host part [] ↔
      ¬Recorded s.host part.1.family part.2 ∨
        ¬Live s.host part.1.family part.2 ∧ part.1.refused .revoked = part.1.refused .unknown := by
  rw [answer_late hlast hlate hearly distinct.checked s.host []]
  have hrun : runPart elsewhere s.host part = (consult elsewhere part.1 (lookUp s.host part),
      registryStep s.host (.accept part.1.family.kind part.2 part.1.needs)) := by
    rw [runPart, if_pos hlate]
    rfl
  rw [answerParts, hrun]
  have hconsult (looked) : consult elsewhere part.1 looked = match looked with
      | .error failure => .error failure
      | .ok (grant, payload) => match part.1.spent payload with
        | some failure => .error failure
        | none => match part.1.use payload with
          | .error failure => .error failure
          | .ok outcome => .ok (grant, outcome) := by
    cases looked <;> simp [consult, hearly, distinct.checked, elsewhere]
  rw [hconsult]
  rcases lookUp_held part tables held hneeds with
    ⟨hrecorded, -, hlooked⟩ | ⟨hrecorded, ⟨hlive, hlooked⟩ | ⟨hlive, grant, payload, -, hlooked⟩⟩
  · rw [hlooked]
    exact ⟨fun _ => .inl hrecorded, fun _ => rfl⟩
  · rw [hlooked]
    constructor
    · intro h
      exact .inr ⟨hlive, (Answer.failure.inj h).symm⟩
    · rintro (h | ⟨-, h⟩)
      · exact absurd hrecorded h
      · exact congrArg Answer.failure h.symm
  · rw [hlooked]
    dsimp only
    have never : ¬(¬Recorded s.host part.1.family part.2 ∨
        ¬Live s.host part.1.family part.2 ∧ part.1.refused .revoked = part.1.refused .unknown) := by
      rintro (h | ⟨h, -⟩)
      · exact h hrecorded
      · exact h hlive
    refine ⟨fun h => ?_, fun h => absurd h never⟩
    cases hspent : part.1.spent payload with
    | some failure =>
      rw [hspent] at h
      exact absurd (hspent.trans (congrArg some (Answer.failure.inj h).symm)) (distinct.spent payload)
    | none =>
      rw [hspent] at h
      dsimp only at h
      cases huse : part.1.use payload with
      | error failure =>
        rw [huse] at h
        exact absurd (huse.trans (congrArg Except.error (Answer.failure.inj h).symm)) (distinct.use payload)
      | ok outcome =>
        rw [huse] at h
        cases outcome with
        | value value => cases h
        | derived family payload' => cases h
        | watch revoked watch =>
          obtain ⟨hid, hget, hrevoked, hroot⟩ := lookUp_ok tables.runs hlooked
          have alike := alike_accept s.host part.1.family part.2 part.1.family.kind part.2 part.1.needs
          dsimp only [settle] at h
          rw [hid, if_neg (by
            rw [isRevoked_live (alike.grant.trans hget) hrevoked (alike.withdrawn ▸ hroot)]
            exact Bool.false_ne_true)] at h
          cases watch with
          | error failure =>
            exact absurd (congrArg Except.error (Answer.failure.inj h).symm)
              (distinct.watch payload revoked _ huse)
          | ok watch => cases h

end Held

section Remembering

variable {R : Family → Type} {V : Type} {last : Family → Bool} {s : Shared R} {family : Family}
  {number : ℕ} {root : GrantId}

theorem outcome_remember (s : CallState) (kind : Kind) (number : ℕ)
    (metadata : Path → Except Unavailable Identity) :
    (RecentCalls.remember s kind number metadata).1 =
      match (Grants.remember kind number s.grants.registry).1 with
      | .error refusal => .error (RecentRuns.refusedAs refusal)
      | .ok held => (locate s metadata held.id).map fun _ => () := by
  rcases remember_cases s kind number metadata with
    ⟨refusal, hgrant, h⟩ | ⟨held, reason, hgrant, hlocate, h⟩ | ⟨held, _, _, _, hgrant, hlocate, h⟩
  · rw [h, hgrant]
  · rw [h, hgrant]
    dsimp only
    rw [hlocate]
    rfl
  · rw [h, hgrant]
    dsimp only
    rw [hlocate]
    rfl

theorem locate_not_revoked {lists : CallState} {metadata : Metadata} {id : GrantId} :
    locate lists (fun path => (metadata path).mapError unavailable) id ≠ .error .revoked := by
  unfold locate
  split
  · intro h
    cases h
  · rename_i kind path _
    dsimp only
    cases metadata path with
    | error kind =>
      intro h
      cases kind <;> cases h
    | ok identity =>
      intro h
      cases h

theorem answer_remember_iff {metadata : Metadata} (tables : Tables s)
    (held : s.holds ⟨family.kind, number⟩ = some ⟨family, root⟩) (hlast : last family = true) :
    answerRemember (V := V) last s.host family number metadata =
        answerRemember elsewhere s.host family number metadata ↔ ¬Live s.host family number := by
  have hgone : answerRemember (V := V) last s.host family number metadata = .failure (.remember .revoked) := by
    have hget := get_routeDealloc s.host family number
    rw [answerRemember, drop, if_pos hlast, outcome_remember]
    rw [Host.registry] at hget
    simp [Grants.remember, hget, RecentRuns.refusedAs]
  rw [hgone, answerRemember, drop_elsewhere, outcome_remember]
  rcases remember_held tables held with ⟨hget, hremember⟩ | ⟨g, hget, hroot, ⟨hroots, hremember⟩ | ⟨hroots, hremember⟩⟩
  · rw [Host.registry] at hremember
    rw [hremember]
    refine ⟨fun _ hlive => ?_, fun _ => rfl⟩
    obtain ⟨grant, hgrant, -⟩ := hlive
    cases hget.symm.trans hgrant
  · rw [Host.registry] at hremember
    rw [hremember]
    refine ⟨fun _ hlive => ?_, fun _ => rfl⟩
    obtain ⟨grant, hgrant, hlive⟩ := hlive
    obtain rfl := Option.some.inj (hget.symm.trans hgrant)
    exact hlive (hroot ▸ hroots)
  · refine ⟨fun h => ?_, fun h => absurd ⟨g, hget, hroot ▸ hroots⟩ h⟩
    rw [Host.registry] at hremember
    cases hgrant : (Grants.remember family.kind number s.host.lists.grants.registry).1 with
    | error refusal =>
      rw [hgrant, hremember refusal hgrant] at h
      cases h
    | ok held =>
      rw [hgrant] at h
      dsimp only at h
      cases hlocate : locate s.host.lists (fun path => (metadata path).mapError unavailable) held.id with
      | error reason =>
        rw [hlocate] at h
        obtain rfl := Failure.remember.inj (Answer.failure.inj h)
        exact absurd hlocate locate_not_revoked
      | ok found =>
        rw [hlocate] at h
        cases h

end Remembering

section Loads

variable {R : Family → Type} {V : Type} {last : Family → Bool} {s : Shared R}
  {first second : Part R V} {root : GrantId}

theorem answer_alike {s s' : Host (Payload R)} (alike : Alike s s' second.1.family second.2)
    (hstays : last second.1.family = false) (hlate : second.1.late = true)
    (hwatch : ∀ payload revoked watch, second.1.use payload ≠ .ok (.watch revoked watch)) :
    answerParts last s' second [] = answerParts elsewhere s second [] := by
  have hrun (last : Family → Bool) (hstays : last second.1.family = false) (s : Host (Payload R)) :
      runPart last s second = (consult elsewhere second.1 (lookUp s second),
        registryStep s (.accept second.1.family.kind second.2 second.1.needs)) := by
    rw [runPart, if_pos hlate, drop, if_neg (by simp [hstays])]
    exact congrArg (·, _) (consult_congr (.inl hlate))
  rw [answerParts, answerParts, hrun last hstays s', hrun elsewhere rfl s, lookUp_congr alike]
  refine settle_congr alike.next.symm (fun grant revoked watch h => ?_) fun value => rfl
  obtain ⟨-, payload, huse⟩ := consult_ok h
  exact absurd huse (hwatch payload revoked watch)

theorem answer_two_iff (first second : Part R V) (tables : Tables s)
    (held : s.holds ⟨second.1.family.kind, second.2⟩ = some ⟨second.1.family, root⟩)
    (hneeds : second.1.family.rights.Contains second.1.needs) (hfirst : first.1.late = false)
    (hdropped : ∀ payload, first.1.dropped payload = payload)
    (hvalues : ∀ payload outcome, first.1.use payload = .ok outcome → ∃ value, outcome = .value value)
    (hkinds : second.1.family.kind ≠ first.1.family.kind) (hlate : second.1.late = true)
    (hwatch : ∀ payload revoked watch, second.1.use payload ≠ .ok (.watch revoked watch))
    (distinct : Distinct second.1) (hrefused : second.1.refused .revoked ≠ second.1.refused .unknown) :
    answerParts last s.host first [second] = answerParts elsewhere s.host first [second] ↔
      (last second.1.family = true → (∃ failure, (runPart elsewhere s.host first).1 = .error failure) ∨
        second.1.early.isSome = true ∨ ¬Recorded s.host second.1.family second.2) := by
  have hrun (last : Family → Bool) := runPart_early last s.host hfirst hdropped
  have alike (last : Family → Bool) : Alike s.host (runPart last s.host first).2 second.1.family second.2 := by
    rw [hrun last]
    refine alike_trans (alike_accept _ _ _ _ _ _) (alike_drop (fun h => hkinds (by rw [h])) fun h => hkinds ?_)
    exact congrArg GrantId.kind h
  have hsame : (runPart last s.host first).1 = (runPart elsewhere s.host first).1 := by
    rw [hrun last, hrun elsewhere]
  rw [answerParts, answerParts, ← Prod.mk.eta (p := runPart last s.host first),
    ← Prod.mk.eta (p := runPart elsewhere s.host first), hsame]
  cases hout : (runPart elsewhere s.host first).1 with
  | error failure => exact ⟨fun _ _ => .inl ⟨failure, rfl⟩, fun _ => rfl⟩
  | ok found =>
    obtain ⟨grant, outcome⟩ := found
    have huse : ∃ payload, first.1.use payload = .ok outcome := by
      rw [hrun elsewhere] at hout
      exact (consult_ok hout).2
    obtain ⟨payload, huse⟩ := huse
    obtain ⟨value, rfl⟩ := hvalues payload outcome huse
    change answerParts last (runPart last s.host first).2 second [] =
      answerParts elsewhere (runPart elsewhere s.host first).2 second [] ↔ _
    rw [answer_alike (alike elsewhere) rfl hlate hwatch]
    cases hlast : last second.1.family with
    | false => exact ⟨fun _ => nofun, fun _ => answer_alike (alike last) hlast hlate hwatch⟩
    | true =>
      cases hearly : second.1.early with
      | some failure =>
        rw [answer_early hearly, answer_early hearly]
        exact ⟨fun _ _ => .inr (.inl rfl), fun _ => rfl⟩
      | none =>
        rw [answer_late hlast hlate hearly distinct.checked _ [],
          ← answer_late hlast hlate hearly distinct.checked s.host [],
          answer_late_iff second tables held hneeds hlast hlate hearly distinct]
        constructor
        · rintro (h | ⟨-, h⟩) -
          · exact .inr (.inr h)
          · exact absurd h hrefused
        · intro h
          rcases h rfl with ⟨failure, h⟩ | h | h
          · cases h
          · cases h
          · exact .inl h

def Reads (validName : String → Bool) (s : Host (Payload R)) (dir : ℕ) (name : String)
    (bytes : R .directory → Except ChildReadError V) : Prop :=
  validName name = true ∧ Live s .directory dir ∧
    ∃ payload v, s.payloads .directory dir = some payload ∧ bytes payload = .ok v

theorem reads_iff {validName : String → Bool} {dir : ℕ} {name : String}
    {bytes : R .directory → Except ChildReadError V} (tables : Tables s)
    (held : s.holds ⟨.directory, dir⟩ = some ⟨.directory, root⟩) :
    (∃ failure, (runPart elsewhere s.host (audioLoadFile validName name bytes, dir)).1 = .error failure) ↔
      ¬Reads validName s.host dir name bytes := by
  rw [runPart_early _ _ rfl fun _ => rfl]
  dsimp only
  cases hname : validName name with
  | false =>
    have hearly : (audioLoadFile (R := R) validName name bytes).early =
        some (.audio 2 "invalid audio file name") := by simp [audioLoadFile, hname]
    refine ⟨fun _ h => ?_, fun _ => ⟨.audio 2 "invalid audio file name", by simp only [consult, hearly]⟩⟩
    exact Bool.false_ne_true (hname.symm.trans h.1)
  | true =>
    have hearly : (audioLoadFile (R := R) validName name bytes).early = none := by
      simp [audioLoadFile, hname]
    have hconsult (looked) : consult elsewhere (audioLoadFile (R := R) validName name bytes) looked =
        match looked with
        | .error failure => .error failure
        | .ok (grant, payload) => match bytes payload with
          | .error e => .error (loadFault e)
          | .ok v => .ok (grant, data v) := by
      cases looked with
      | error failure => simp [consult, audioLoadFile, hname]
      | ok found =>
        obtain ⟨grant, payload⟩ := found
        cases hbytes : bytes payload <;>
          simp [consult, audioLoadFile, hname, elsewhere, answered, hbytes]
    rw [hconsult]
    have hneeds : Family.directory.rights.Contains .read := by decide
    rcases lookUp_held (audioLoadFile validName name bytes, dir) tables held hneeds with
      ⟨-, hlive, hlooked⟩ | ⟨-, ⟨hlive, hlooked⟩ | ⟨hlive, grant, payload, hpayload, hlooked⟩⟩
    · rw [hlooked]
      exact ⟨fun _ h => hlive h.2.1, fun _ => ⟨_, rfl⟩⟩
    · rw [hlooked]
      exact ⟨fun _ h => hlive h.2.1, fun _ => ⟨_, rfl⟩⟩
    · rw [hlooked]
      dsimp only
      cases hbytes : bytes payload with
      | error e =>
        refine ⟨fun _ ⟨_, _, payload', v, hpayload', hv⟩ => ?_, fun _ => ⟨_, rfl⟩⟩
        obtain rfl := Option.some.inj (hpayload.symm.trans hpayload')
        cases hbytes.symm.trans hv
      | ok v =>
        refine ⟨?_, fun h => absurd ⟨hname, hlive, payload, v, hpayload, hbytes⟩ h⟩
        rintro ⟨failure, h⟩
        cases h

end Loads

section Calls

variable {R : Family → Type} {V : Type}

/-- When the last reference makes no difference to a call. -/
def Spared (validName : String → Bool) (last : Family → Bool) (s : Host (Payload R)) :
    HostCall R V → Prop
  | .rememberDirectory dir _ => last .directory = true → ¬Live s .directory dir
  | .rememberFile file _ => last .document = true → ¬Live s .document file
  | .sqliteWatch database _ => last .database = true → ¬Recorded s .database database
  | .sqliteQuery database params _ =>
    last .database = true → params.isSome = true ∨ ¬Recorded s .database database
  | .audioLoad output dir name bytes fault _ => last .output = true →
      ¬Reads validName s dir name bytes ∨ fault.isSome = true ∨ ¬Recorded s .output output
  | .audioPlay track | .audioPause track | .audioSeek track _ | .audioStop track =>
    last .track = true → ¬Recorded s .track track
  | .audioStatus track _ => last .track = true → ¬Live s .track track
  | _ => True

/-- The calls on a terminal, which ends with its handle. -/
def onTerminal : HostCall R V → Bool
  | .processRead .. | .processWrite .. | .processResize .. | .processCancel .. => true
  | _ => false

theorem distinct_sqliteWatch {started : R .database → Except WatchFault (Except WatchRefusal (R .watch))} :
    Distinct (V := V) (sqliteWatch started) where
  checked := rfl
  spent _ := nofun
  use database := by
    change answered _ _ (started database) ≠ _
    cases started database with
    | error fault => cases fault <;> exact fun h => by cases h
    | ok started => exact fun h => by cases h
  watch database revoked watch h := by
    change answered _ _ (started database) = _ at h
    cases hstarted : started database with
    | error fault =>
      rw [hstarted] at h
      cases h
    | ok outcome =>
      rw [hstarted] at h
      cases h
      cases outcome with
      | error refusal => cases refusal <;> exact fun h => by cases h
      | ok watch => exact fun h => by cases h

theorem classify_not_invalid (code : ErrorCode) : classify code ≠ .sqlite 3 "invalid SQLite capability" := by
  cases code <;> decide

theorem distinct_sqliteQuery {params : Option ParamFault} {page : R .database → Except QueryFault V} :
    Distinct (sqliteQuery params page) where
  checked := rfl
  spent _ := nofun
  use database := by
    change answered _ _ (page database) ≠ _
    cases page database with
    | error fault =>
      intro h
      have h := Except.error.inj h
      cases fault with
      | sqlite code => exact classify_not_invalid code h
      | _ => cases h
    | ok v => exact fun h => by cases h
  watch database revoked watch h := by
    change answered _ _ (page database) = _ at h
    cases hpage : page database <;> rw [hpage] at h <;> cases h

theorem distinct_audioLoadTrack {fault : Option DecodeFault} {player : R .track} :
    Distinct (V := V) (audioLoadTrack fault player) where
  checked := rfl
  spent _ := nofun
  use _ := nofun
  watch _ _ _ := nofun

theorem stopped_not_invalid (track : Track (R .track)) :
    stoppedTrack track ≠ some (.audio 1 "invalid audio track capability") := by
  unfold stoppedTrack
  split
  · exact fun h => absurd (Option.some.inj h) (by decide)
  · nofun

theorem distinct_withTrack {spent : Track (R .track) → Option Failure}
    {use : Track (R .track) → Except Failure (Outcome (Payload R) V)}
    (hspent : ∀ track, spent track ≠ some (.audio 1 "invalid audio track capability"))
    (huse : ∀ track, use track = .ok done ∨ use track = .error (.audio 4 "audio track does not support seeking")) :
    Distinct (withTrack spent use) where
  checked := rfl
  spent := hspent
  use track := by
    change use track ≠ _
    rcases huse track with h | h
    · rw [h]
      nofun
    · rw [h]
      intro h
      have heq : Failure.audio 4 "audio track does not support seeking" =
        .audio 1 "invalid audio track capability" := Except.error.inj h
      exact absurd heq (by decide)
  watch track revoked watch h := by
    change use track = _ at h
    rcases huse track with h' | h' <;> cases h'.symm.trans h

end Calls

section Runs

variable {R : Family → Type} {V : Type} {validName : String → Bool} {store : RecentStores.Store}
  {s : HandleState R V} {shared : Shared R}

theorem holds_taken {call : HostCall R V} (h : (rootsOf shared (taken validName call)).isSome = true)
    {family : Family} {number : ℕ} (hmem : (family, number) ∈ taken validName call) :
    ∃ root, shared.holds ⟨family.kind, number⟩ = some ⟨family, root⟩ := by
  obtain ⟨roots, hroots⟩ := Option.isSome_iff_exists.mp h
  obtain ⟨root, -, hholds⟩ := holds_of_rootsOf hroots hmem
  exact ⟨root, hholds⟩

theorem late_spared (operation : Operation (Payload R) V) {number : ℕ} {root : GrantId}
    {last : Family → Bool} (tables : Tables shared)
    (held : shared.holds ⟨operation.family.kind, number⟩ = some ⟨operation.family, root⟩)
    (hneeds : operation.family.rights.Contains operation.needs) (hlate : operation.late = true)
    (hearly : operation.early = none) (distinct : Distinct operation) :
    answerParts last shared.host (operation, number) [] =
        answerParts elsewhere shared.host (operation, number) [] ↔
      (last operation.family = true → ¬Recorded shared.host operation.family number ∨
        ¬Live shared.host operation.family number ∧ operation.refused .revoked = operation.refused .unknown) := by
  cases hlast : last operation.family with
  | false =>
    refine ⟨fun _ => nofun, fun _ => ?_⟩
    have hrun (last : Family → Bool) (hlast : last operation.family = false) :
        runPart last shared.host (operation, number) = (consult elsewhere operation
          (lookUp shared.host (operation, number)),
            registryStep shared.host (.accept operation.family.kind number operation.needs)) := by
      rw [runPart, if_pos hlate, drop, if_neg (by simp [hlast])]
      exact congrArg (·, _) (consult_congr (.inl hlate))
    rw [answerParts, answerParts, hrun last hlast, hrun elsewhere rfl]
  | true =>
    rw [answer_late_iff (operation, number) tables held hneeds hlast hlate hearly distinct]
    exact ⟨fun h _ => h, fun h => h rfl⟩

theorem live_recorded {s : Host (Payload R)} {family : Family} {number : ℕ} (h : Live s family number) :
    Recorded s family number := by
  obtain ⟨grant, hget, -⟩ := h
  intro hnone
  cases hget.symm.trans hnone

theorem remember_spared {family : Family} {number : ℕ} {root : GrantId} {metadata : Metadata}
    {last : Family → Bool} (tables : Tables shared)
    (held : shared.holds ⟨family.kind, number⟩ = some ⟨family, root⟩) :
    answerRemember (V := V) last shared.host family number metadata =
        answerRemember elsewhere shared.host family number metadata ↔
      (last family = true → ¬Live shared.host family number) := by
  cases hlast : last family with
  | false =>
    refine ⟨fun _ => nofun, fun _ => ?_⟩
    rw [answerRemember, answerRemember, drop, if_neg (by simp [hlast]), drop_elsewhere]
  | true =>
    rw [answer_remember_iff tables held hlast]
    exact ⟨fun h _ => h, fun h => h rfl⟩

/-- Where a withdrawn grant and an unknown one are answered apart. -/
theorem late_spared_apart (operation : Operation (Payload R) V) {number : ℕ} {root : GrantId}
    {last : Family → Bool} (tables : Tables shared)
    (held : shared.holds ⟨operation.family.kind, number⟩ = some ⟨operation.family, root⟩)
    (hneeds : operation.family.rights.Contains operation.needs) (hlate : operation.late = true)
    (hearly : operation.early = none) (distinct : Distinct operation)
    (hrefused : operation.refused .revoked ≠ operation.refused .unknown) :
    answerParts last shared.host (operation, number) [] =
        answerParts elsewhere shared.host (operation, number) [] ↔
      (last operation.family = true → ¬Recorded shared.host operation.family number) := by
  rw [late_spared operation tables held hneeds hlate hearly distinct]
  exact forall_congr' fun _ => or_iff_left fun h => hrefused h.2

/-- Consuming the last reference changes the answers of the calls that look their handle up
after they released it, where they would have found it, and no others. -/
theorem last_reference_answers (h : Reachable (handleSystem validName store) s) {call : HostCall R V}
    (hterminal : onTerminal call = false)
    (hheld : (rootsOf s.shared (taken validName call)).isSome = true) (last : Family → Bool) :
    answerOf last s.shared.host validName call = answerOf elsewhere s.shared.host validName call ↔
      Spared validName last s.shared.host call := by
  have tables := (HandleTables.kept h).tables
  have early {operation : Operation (Payload R) V} {number : ℕ} (hlate : operation.late = false)
      (hdropped : ∀ payload, operation.dropped payload = payload) :
      answerParts last s.shared.host (operation, number) [] =
          answerParts elsewhere s.shared.host (operation, number) [] ↔ True :=
    iff_of_true (settle_early (operation, number) tables.runs hlate hdropped fun _ => rfl) trivial
  have handle (family : Family) (number : ℕ) (hmem : (family, number) ∈ taken validName call) :=
    holds_taken hheld hmem
  have transport : Family.track.rights.Contains (Rights.read.union .write) := by decide
  have listening : Family.track.rights.Contains .read := by decide
  have reading : Family.database.rights.Contains .read := by decide
  have connecting : Family.output.rights.Contains .connect := by decide
  have database : Failure.sqlite 10 "SQLite authority was withdrawn" ≠
    .sqlite 3 "invalid SQLite capability" := by decide
  have track : Failure.audio 7 "audio authority was withdrawn" ≠
    .audio 1 "invalid audio track capability" := by decide
  have output : Failure.audio 7 "audio authority was withdrawn" ≠
    .audio 1 "invalid audio output capability" := by decide
  have kinds : Kind.audio ≠ Kind.directory := by decide
  cases call with
  | dirList | dirOpenRead | dirRead | dirSha256 | dirWatch | fileRead | fileSha256
  | sqliteOpenRead | sqliteOpenFileRead | deviceDiscover | deviceConnect | deviceTransact | deviceClose
  | processSpawn | httpSend | systemSample | tcpReadUpTo | tcpWriteAll | clipboardReadText
  | clipboardWriteText => exact early rfl fun _ => rfl
  | processRead | processWrite | processResize | processCancel => cases hterminal
  | rememberDirectory dir metadata =>
    obtain ⟨root, held⟩ := handle .directory dir (List.mem_singleton.mpr rfl)
    exact remember_spared tables held
  | rememberFile file metadata =>
    obtain ⟨root, held⟩ := handle .document file (List.mem_singleton.mpr rfl)
    exact remember_spared tables held
  | sqliteWatch number started =>
    obtain ⟨root, held⟩ := handle .database number (List.mem_singleton.mpr rfl)
    exact late_spared_apart (sqliteWatch started) tables held reading rfl rfl distinct_sqliteWatch
      database
  | sqliteQuery number params page =>
    obtain ⟨root, held⟩ := handle .database number (List.mem_singleton.mpr rfl)
    cases params with
    | none =>
      refine (late_spared_apart (sqliteQuery none page) tables held reading rfl rfl
        distinct_sqliteQuery database).trans (forall_congr' fun _ => ?_)
      exact (or_iff_right Bool.false_ne_true).symm
    | some fault =>
      refine iff_of_true ?_ fun _ => .inl rfl
      exact (answer_early rfl s.shared.host).trans (answer_early rfl s.shared.host).symm
  | audioPlay number | audioPause number =>
    obtain ⟨root, held⟩ := handle .track number (List.mem_singleton.mpr rfl)
    exact late_spared_apart (withTrack stoppedTrack fun _ => .ok done) tables held transport rfl rfl
      (distinct_withTrack stopped_not_invalid fun _ => .inl rfl) track
  | audioSeek number seeks =>
    obtain ⟨root, held⟩ := handle .track number (List.mem_singleton.mpr rfl)
    refine late_spared_apart (HandleCalls.audioSeek seeks) tables held transport rfl rfl
      (distinct_withTrack stopped_not_invalid fun track => ?_) track
    by_cases hseeks : seeks track.player = true
    · exact .inl (if_pos hseeks)
    · exact .inr (if_neg hseeks)
  | audioStop number =>
    obtain ⟨root, held⟩ := handle .track number (List.mem_singleton.mpr rfl)
    have distinct : Distinct (withTrack (R := R) (V := V) (fun _ => none) fun _ => .ok done) :=
      distinct_withTrack (fun _ => nofun) fun _ => .inl rfl
    exact late_spared_apart HandleCalls.audioStop tables held transport rfl rfl
      ⟨distinct.checked, distinct.spent, distinct.use, distinct.watch⟩ track
  | audioStatus number status =>
    obtain ⟨root, held⟩ := handle .track number (List.mem_singleton.mpr rfl)
    refine (late_spared (HandleCalls.audioStatus status) tables held listening rfl rfl
      ⟨rfl, fun _ => nofun, fun _ => nofun, fun _ _ _ => nofun⟩).trans (forall_congr' fun _ => ?_)
    exact ⟨fun h => h.elim (mt live_recorded) And.left, fun h => .inr ⟨h, rfl⟩⟩
  | audioLoad number dir name bytes fault player =>
    obtain ⟨root, held⟩ := handle .output number (List.mem_cons_of_mem _ (List.mem_singleton.mpr rfl))
    obtain ⟨root', held'⟩ := handle .directory dir List.mem_cons_self
    refine (answer_two_iff (audioLoadFile validName name bytes, dir)
      (audioLoadTrack fault player, number) tables held connecting rfl (fun _ => rfl)
      (fun payload outcome huse => ?_) kinds rfl (fun _ _ _ => nofun) distinct_audioLoadTrack
      output).trans ?_
    · change answered loadFault data (bytes payload) = .ok outcome at huse
      cases hbytes : bytes payload with
      | error e =>
        rw [hbytes] at huse
        cases huse
      | ok v =>
        rw [hbytes] at huse
        exact ⟨_, (Except.ok.inj huse).symm⟩
    · rw [reads_iff tables held']
      have hfault : (audioLoadTrack (R := R) (V := V) fault player).early.isSome = fault.isSome :=
        Option.isSome_map
      rw [hfault]
      exact Iff.rfl

end Runs

section Examples

/-- Nothing is behind the handles, and every call on them succeeds. -/
abbrev Idle (_ : Family) : Type := Unit

def emptyStore : RecentStores.Store := configured [] none

def opening : List (HandleEvent Idle Unit) :=
  [.acquire .directory () .provisioned none,
    .task 0 (.begin (.sqliteOpenRead 1 fun _ => .ok ())), .task 0 .proceed, .task 0 .proceed,
    .task 0 .proceed]

def opened : HandleState Idle Unit :=
  (opening.foldlM (HandleRuns.next fun _ => true) (HandleRuns.started emptyStore)).getD
    (HandleRuns.started emptyStore)

theorem opened_reachable : Reachable (handleSystem (fun _ => true) emptyStore) opened := by
  -- none of the events is a release
  have lift : ∀ e ∈ opening, ∀ s t : HandleState Idle Unit, HandleRuns.next (fun _ => true) s e = some t →
      (handleSystem (fun _ => true) emptyStore).Step s e t := by
    intro e he s t h
    simp only [opening, List.mem_cons, List.not_mem_nil, or_false] at he
    rcases he with rfl | rfl | rfl | rfl | rfl <;> exact ⟨trivial, h⟩
  have run {es : List (HandleEvent Idle Unit)} (hes : ∀ e ∈ es, e ∈ opening) {s t : HandleState Idle Unit}
      (hs : Reachable (handleSystem (fun _ => true) emptyStore) s)
      (h : es.foldlM (HandleRuns.next fun _ => true) s = some t) :
      Reachable (handleSystem (fun _ => true) emptyStore) t := by
    induction es generalizing s with
    | nil =>
      cases h
      exact hs
    | cons e es ih =>
      rw [List.foldlM_cons] at h
      obtain ⟨u, hu, hrest⟩ := Option.bind_eq_some_iff.mp h
      exact ih (fun e' he' => hes e' (List.mem_cons_of_mem _ he'))
        (reachable_step hs (lift e (hes e List.mem_cons_self) s u hu)) hrest
  exact run (fun _ h => h) (reachable_initial _) rfl

def query : HostCall Idle Unit := .sqliteQuery 1 none fun _ => .ok ()

theorem query_loses_its_handle :
    ¬∀ s : HandleState Idle Unit, Reachable (handleSystem (fun _ => true) emptyStore) s →
      ∀ call : HostCall Idle Unit, onTerminal call = false →
        (rootsOf s.shared (taken (fun _ => true) call)).isSome = true → ∀ last : Family → Bool,
          answerOf last s.shared.host (fun _ => true) call =
            answerOf elsewhere s.shared.host (fun _ => true) call := by
  intro h
  have hanswer : Answer.failure (.sqlite 3 "invalid SQLite capability") = Answer.value (.data ()) :=
    h opened opened_reachable query rfl rfl fun _ => true
  cases hanswer

theorem query_spared_iff : answerOf (fun _ => true) opened.shared.host (fun _ => true) query =
      answerOf elsewhere opened.shared.host (fun _ => true) query ↔
    Spared (fun _ => true) (fun _ => true) opened.shared.host query :=
  last_reference_answers opened_reachable rfl rfl fun _ => true

end Examples

end LastReferences
