import RocGui.ThreadSystems
import Mathlib.Data.List.Nodup
import Mathlib.Data.List.Perm.Subperm
import Mathlib.Data.List.Basic

/-! Devices, samplers and processes under any tasks: opening, using, closing and releasing
them, each section under a lock and each access of an atomic as a step of its own. -/
namespace LiveResources

open Transitions ThreadSystems

section Model

inductive Kind where
  | device | sampler | process
  deriving DecidableEq

/-- `MAX_ACTIVE` of each module. -/
def Kind.maxActive : Kind → ℕ
  | .device => 32
  | .sampler => 16
  | .process => 64

inductive Reason where
  | accessDenied | busy | closed | disconnected | exited | invalidCapability | invalidRequest
  | invalidSize | io | notFound | protocol | resourceLimit | revoked | timeout | unsupported
  deriving DecidableEq

inductive Use where
  | transact | sample | write | resize | read
  deriving DecidableEq

def Use.kind : Use → Kind
  | .transact => .device
  | .sample => .sampler
  | .write | .resize | .read => .process

inductive Answer where
  | refused (reason : Reason)
  | opened (r : ℕ)
  | used (r : ℕ)
  | canceled (r : ℕ)
  | closed (r : ℕ)
  | alreadyStopped (r : ℕ)
  deriving DecidableEq

def Use.refusal (r : ℕ) : Use → Answer
  | .transact | .sample => .refused .closed
  | .write | .resize => .refused .exited
  | .read => .canceled r

/-- `closed` is `canceled` of a process; only a process exits, and its child does so at any
time. -/
structure Resource where
  closed : Bool
  exited : Bool
  gone : Bool

/-- One store with its counters. A resource taken out of `stored` goes on for the tasks that have
looked it up. `closures` are the closes the counter of closes has counted; `handed` are the
handles returned, each with the place at which the counter of opens counted it; `shut` are the
closes that have returned, and `reached` the uses that got through to the resource, each with
whether a close had returned when it began. -/
structure Store where
  next : ℕ
  locked : Bool
  stored : List ℕ
  resource : ℕ → Resource
  opened : ℕ
  closures : List ℕ
  handed : List (ℕ × ℕ)
  shut : List ℕ
  reached : List (ℕ × Bool)
  answers : List Answer

inductive Call where
  | idle
  | entering
  | counting (rest found : List ℕ)
  | loading (r : ℕ) (rest found : List ℕ)
  | asking (r : ℕ) (rest found : List ℕ)
  | noting (r : ℕ) (rest found : List ℕ)
  | checked
  | acquiring
  | inserting (place : Option ℕ)
  | recording (r : ℕ) (place : Option ℕ)
  | numbering (r : ℕ)
  | looking (r : ℕ) (late : Bool) (target : Option Use)
  | testing (r : ℕ) (late : Bool) (how : Use)
  | trying (r : ℕ) (late : Bool)
  | inside (r : ℕ) (late : Bool) (how : Use)
  | draining (r : ℕ)
  | closing (r : ℕ)
  | swapping (r : ℕ)
  | killing (r : ℕ)
  | tallying (r : ℕ)
  | dropping (r : ℕ)
  | ending (r : ℕ)
  deriving DecidableEq

inductive Action where
  /-- An open, refused by its grant or its arguments or not. -/
  | «open» (refused : Option Reason)
  /-- `active_count` lists the store. -/
  | list
  | look
  | note
  | decide
  /-- The resource itself is opened. -/
  | establish (failed : Option Reason)
  | number
  | insert
  | record
  /-- A grant is acquired. -/
  | acquire (configured : Bool)
  /-- A use, refused by its grant or its arguments or not. -/
  | use (r : ℕ) (how : Use) (refused : Option Reason)
  | close (r : ℕ) (refused : Option Reason)
  | find
  | test
  | reach (again : Bool)
  /-- A read has come to the end of the output. -/
  | drain
  | busy
  | shut
  | kill
  | tally
  /-- The last handle is dropped. -/
  | release (r : ℕ)
  /-- The child of a process exits. -/
  | exit (r : ℕ)

def Store.answer (s : Store) (answer : Answer) : Store := { s with answers := s.answers ++ [answer] }

def Store.setResource (s : Store) (r : ℕ) (resource : Resource) : Store :=
  { s with resource := Function.update s.resource r resource }

def Store.setClosed (s : Store) (r : ℕ) : Store :=
  s.setResource r { s.resource r with closed := true }

def Store.hand (s : Store) (r place : ℕ) : Store :=
  { s.answer (.opened r) with handed := s.handed ++ [(r, place)] }

def Store.setShut (s : Store) (r : ℕ) (answer : Answer) : Store :=
  { s.answer answer with shut := s.shut ++ [r] }

def Store.Held (s : Store) (r : ℕ) : Prop := r ∈ s.handed.map Prod.fst

instance (s : Store) (r : ℕ) : Decidable (s.Held r) := inferInstanceAs (Decidable (_ ∈ _))

def Store.insert (s : Store) : Store :=
  { s.setResource s.next ⟨false, false, false⟩ with next := s.next + 1, stored := s.stored ++ [s.next] }

def advance (k : Kind) (s : Store) : Call → Action → Option (Call × Store)
  -- `roc_device_connect`, `roc_system_acquire` and `roc_process_spawn`, with `active_count`,
  -- which keeps the store locked but for processes
  | .idle, .open refused =>
    match refused with
    | some reason => some (.idle, s.answer (.refused reason))
    | none => some (.entering, s)
  | .entering, .list =>
    if s.locked then none else some (.counting s.stored [], { s with locked := k ≠ .process })
  | .counting (r :: rest) found, .look =>
    if (s.resource r).closed then some (.counting rest found, s)
    else if k = .process then some (.loading r rest found, s)
    else some (.counting rest (found ++ [r]), s)
  | .loading r rest found, .look =>
    if (s.resource r).exited then some (.counting rest found, s) else some (.asking r rest found, s)
  | .asking r rest found, .look =>
    if (s.resource r).gone then some (.noting r rest found, s)
    else some (.counting rest (found ++ [r]), s)
  | .noting r rest found, .note =>
    some (.counting rest found, s.setResource r { s.resource r with exited := true })
  | .counting [] found, .decide =>
    let s := if k = .process then s else { s with locked := false }
    if found.length ≥ k.maxActive then some (.idle, s.answer (.refused .resourceLimit))
    else some (.checked, s)
  | .checked, .establish failed =>
    if k = .sampler ∧ s.locked then none
    else match failed with
      | some reason => some (.idle, s.answer (.refused reason))
      | none => some (if k = .sampler then .acquiring else .inserting none, s)
  | .acquiring, .number => some (.inserting (some s.opened), { s with opened := s.opened + 1 })
  | .inserting place, .insert =>
    if s.locked then none else some (.recording s.next place, s.insert)
  | .recording r place, .record =>
    match place with
    | some place => some (.idle, s.hand r place)
    | none => some (.numbering r, s)
  | .numbering r, .number => some (.idle, { s with opened := s.opened + 1 }.hand r s.opened)
  -- `roc_device_acquire` and `roc_process_acquire`
  | .idle, .acquire configured =>
    if s.locked ∨ k = .sampler then none
    else if configured then some (.idle, { s with next := s.next + 1 })
    else some (.idle, s.answer (.refused .accessDenied))
  | .idle, .use r how refused =>
    if how.kind = k ∧ s.Held r then
      match refused with
      | some reason => some (.idle, s.answer (.refused reason))
      | none => some (.looking r (r ∈ s.shut) (some how), s)
    else none
  | .idle, .close r refused =>
    if s.Held r then
      match refused with
      | some reason => some (.idle, s.answer (.refused reason))
      | none => some (.looking r false none, s)
    else none
  | .looking r late target, .find =>
    if s.locked then none
    else if r ∈ s.stored then
      match target with
      | some how => some (.testing r late how, s)
      | none => some (.closing r, s)
    else some (.idle, s.answer (.refused .invalidCapability))
  | .testing r late how, .test =>
    if (s.resource r).closed then some (.idle, s.answer (how.refusal r))
    else if how = .write then some (.trying r late, s) else some (.inside r late how, s)
  | .trying r late, .test =>
    if (s.resource r).exited then some (.idle, s.answer (.refused .exited))
    else some (.inside r late .write, s)
  | .inside r late how, .reach again =>
    let s := { s with reached := s.reached ++ [(r, late)] }
    if again ∧ how = .read then some (.testing r late how, s) else some (.idle, s.answer (.used r))
  | .inside r late how, .drain =>
    if how = .read then some (.draining r, { s with reached := s.reached ++ [(r, late)] }) else none
  | .draining r, .note =>
    some (.idle, (s.setResource r { s.resource r with exited := true }).answer (.used r))
  | .inside _ _ how, .busy =>
    if how = .sample then some (.idle, s.answer (.refused .busy)) else none
  -- `roc_device_close`, `roc_system_close` and `roc_process_cancel`
  | .closing r, .shut =>
    if k = .process then
      if (s.resource r).exited then some (.idle, s.answer (.alreadyStopped r))
      else some (.swapping r, s)
    else if (s.resource r).closed then some (.idle, s.setShut r (.closed r))
    else some (.tallying r, s.setClosed r)
  | .swapping r, .shut =>
    if (s.resource r).closed then some (.idle, s.setShut r (.alreadyStopped r))
    else some (.killing r, s.setClosed r)
  | .killing r, .kill => some (.tallying r, s)
  | .tallying r, .tally =>
    some (.idle, { s with closures := s.closures ++ [r] }.setShut r (.closed r))
  -- `route_dealloc`
  | .idle, .release r =>
    if s.locked ∨ ¬s.Held r then none
    else
      let s := { s with stored := s.stored.filter (· ≠ r) }
      some (if k = .process then .dropping r else .idle, s)
  | .dropping r, .shut => some (.ending r, s.setClosed r)
  | .ending _, .kill => some (.idle, s)
  | .idle, .exit r =>
    if k = .process ∧ r < s.next then
      some (.idle, s.setResource r { s.resource r with gone := true })
    else none
  | _, _ => none

def emptyStore : Store := ⟨1, false, [], fun _ => ⟨false, false, false⟩, 0, [], [], [], [], []⟩

def liveSystem (k : Kind) : System (ThreadState Store Call) (ℕ × Action) :=
  threadSystem (advance k) ⟨emptyStore, fun _ => .idle⟩

end Model

section Properties

/-- What `active_count` counts. -/
def Store.Active (s : Store) (r : ℕ) : Prop :=
  (s.resource r).closed = false ∧ (s.resource r).exited = false ∧ (s.resource r).gone = false

instance (s : Store) (r : ℕ) : Decidable (s.Active r) := inferInstanceAs (Decidable (_ ∧ _))

def Store.activeCount (s : Store) : ℕ := (s.stored.filter (s.Active ·)).length

/-- The limit holds, closes are counted once and are no more than the opens, and what begins
after a close of a resource has returned does not reach it. -/
structure LimitsKept (k : Kind) (s : Store) : Prop where
  limit : s.activeCount ≤ k.maxActive
  closes : s.closures.length ≤ s.opened
  once : s.closures.Nodup
  unreached : ∀ r late, (r, late) ∈ s.reached → late = false

/-- The task counts what is active, or has counted it and not yet inserted. -/
def Call.opening : Call → Bool
  | .counting .. | .loading .. | .asking .. | .noting .. | .checked | .acquiring | .inserting _ => true
  | _ => false

/-- No insertion brings the active ones to the limit while another open stands between its count
and its insertion. -/
def Unraced (k : Kind) (s : ThreadState Store Call) (e : ℕ × Action) : Prop :=
  e.2 = .insert → ∀ i, i ≠ e.1 → (s.calls i).opening = true →
    s.shared.activeCount + 1 < k.maxActive

end Properties

section Steps

variable {k : Kind} {s s' : Store} {call call' : Call} {action : Action}

/-- The resource whose close a task is still to count. -/
def Call.marked : Call → Option ℕ
  | .killing r | .tallying r => some r
  | _ => none

/-- The place of a sampler that is counted and not yet returned. -/
def Call.place : Call → Option ℕ
  | .inserting place | .recording _ place => place
  | _ => none

/-- What a step leaves alone: all but the lock, the answers and the uses that got through. -/
structure Frame (s s' : Store) : Prop where
  next : s'.next = s.next
  stored : s'.stored = s.stored
  resource : s'.resource = s.resource
  opened : s'.opened = s.opened
  closures : s'.closures = s.closures
  handed : s'.handed = s.handed
  shut : s'.shut = s.shut

structure Effect (s : Store) (call : Call) (action : Action) (s' : Store) : Prop where
  next : s.next ≤ s'.next
  closed : ∀ r, r < s.next → (s.resource r).closed = true → (s'.resource r).closed = true
  active : ∀ r, r < s.next → s'.Active r → s.Active r
  stored : s'.stored.Sublist s.stored ∨
    action = .insert ∧ s' = s.insert ∧ ∃ place, call = .inserting place
  opened : s.opened ≤ s'.opened
  closures : s'.closures = s.closures ∨ ∃ r, call = .tallying r ∧ s'.closures = s.closures ++ [r]
  handed : s'.handed = s.handed ∨ ∃ r n, s'.handed = s.handed ++ [(r, n)] ∧
    (call = .recording r (some n) ∨ call = .numbering r ∧ n = s.opened ∧ s'.opened = s.opened + 1)
  shut : ∀ r ∈ s'.shut, r ∈ s.shut ∨ call = .tallying r ∨
    (call = .closing r ∨ call = .swapping r) ∧ (s.resource r).closed = true
  reached : ∀ r late, (r, late) ∈ s'.reached →
    (r, late) ∈ s.reached ∨ ∃ how, call = .inside r late how

theorem Frame.effect (d : Frame s s') (reached : ∀ r late, (r, late) ∈ s'.reached →
    (r, late) ∈ s.reached ∨ ∃ how, call = .inside r late how) : Effect s call action s' where
  next := Nat.le_of_eq d.next.symm
  closed r _ h := d.resource ▸ h
  active r _ h := by rwa [Store.Active, d.resource] at h
  stored := .inl (d.stored ▸ List.Sublist.refl _)
  opened := Nat.le_of_eq d.opened.symm
  closures := .inl d.closures
  handed := .inl d.handed
  shut r h := .inl (d.shut ▸ h)
  reached := reached

theorem effect_refl : Effect s call action s :=
  Frame.effect ⟨rfl, rfl, rfl, rfl, rfl, rfl, rfl⟩ fun _ _ => .inl

theorem effect_answer (answer : Answer) : Effect s call action (s.answer answer) :=
  Frame.effect ⟨rfl, rfl, rfl, rfl, rfl, rfl, rfl⟩ fun _ _ => .inl

theorem effect_locked (locked : Bool) : Effect s call action { s with locked := locked } :=
  Frame.effect ⟨rfl, rfl, rfl, rfl, rfl, rfl, rfl⟩ fun _ _ => .inl

theorem effect_locked_answer (locked : Bool) (answer : Answer) :
    Effect s call action ({ s with locked := locked }.answer answer) :=
  Frame.effect ⟨rfl, rfl, rfl, rfl, rfl, rfl, rfl⟩ fun _ _ => .inl

theorem resource_self (r : ℕ) (resource : Resource) :
    (s.setResource r resource).resource r = resource := Function.update_self _ _ _

theorem resource_ne {q r : ℕ} (resource : Resource) (h : q ≠ r) :
    (s.setResource r resource).resource q = s.resource q := Function.update_of_ne h _ _

theorem effect_resource (r : ℕ) (resource : Resource)
    (closed : (s.resource r).closed = true → resource.closed = true)
    (active : resource.closed = false → resource.exited = false → resource.gone = false →
      s.Active r) : Effect s call action (s.setResource r resource) where
  next := Nat.le_refl _
  closed q _ h := by
    by_cases hq : q = r
    · subst hq
      rw [resource_self]
      exact closed h
    · rw [resource_ne _ hq]
      exact h
  active q _ h := by
    by_cases hq : q = r
    · subst hq
      rw [Store.Active, resource_self] at h
      exact active h.1 h.2.1 h.2.2
    · rwa [Store.Active, resource_ne _ hq] at h
  stored := .inl (List.Sublist.refl _)
  opened := Nat.le_refl _
  closures := .inl rfl
  handed := .inl rfl
  shut _ := .inl
  reached _ _ := .inl

theorem effect_closed (r : ℕ) : Effect s call action (s.setClosed r) :=
  effect_resource r _ (fun _ => rfl) nofun

theorem effect_drained (r : ℕ) (answer : Answer) : Effect s call action
    ((s.setResource r { s.resource r with exited := true }).answer answer) := by
  have d : Effect s call action (s.setResource r { s.resource r with exited := true }) :=
    effect_resource r _ id nofun
  exact ⟨d.next, d.closed, d.active, .inl (List.Sublist.refl _), d.opened, d.closures, d.handed,
    d.shut, d.reached⟩

theorem effect_shut (r : ℕ) (answer : Answer) (hcall : call = .closing r ∨ call = .swapping r)
    (hclosed : (s.resource r).closed = true) : Effect s call action (s.setShut r answer) where
  next := Nat.le_refl _
  closed _ _ := id
  active _ _ := id
  stored := .inl (List.Sublist.refl _)
  opened := Nat.le_refl _
  closures := .inl rfl
  handed := .inl rfl
  shut q h := (List.mem_append.mp h).imp_right fun h => .inr (by
    obtain rfl := List.mem_singleton.mp h
    exact ⟨hcall, hclosed⟩)
  reached _ _ := .inl

theorem effect_tallied (r : ℕ) : Effect s (.tallying r) action
    ({ s with closures := s.closures ++ [r] }.setShut r (.closed r)) where
  next := Nat.le_refl _
  closed _ _ := id
  active _ _ := id
  stored := .inl (List.Sublist.refl _)
  opened := Nat.le_refl _
  closures := .inr ⟨r, rfl, rfl⟩
  handed := .inl rfl
  shut q h := (List.mem_append.mp h).imp_right fun h => .inl (by
    obtain rfl := List.mem_singleton.mp h
    rfl)
  reached _ _ := .inl

theorem effect_inserted (place : Option ℕ) : Effect s (.inserting place) .insert s.insert where
  next := Nat.le_succ _
  closed r hr h := by
    have : s.insert.resource r = s.resource r := resource_ne _ (Nat.ne_of_lt hr)
    rw [this]
    exact h
  active r hr h := by
    have : s.insert.resource r = s.resource r := resource_ne _ (Nat.ne_of_lt hr)
    rwa [Store.Active, this] at h
  stored := .inr ⟨rfl, rfl, place, rfl⟩
  opened := Nat.le_refl _
  closures := .inl rfl
  handed := .inl rfl
  shut _ := .inl
  reached _ _ := .inl

theorem effect_counters {next opened : ℕ} {stored : List ℕ} (hnext : s.next ≤ next)
    (hopened : s.opened ≤ opened) (hstored : stored.Sublist s.stored) :
    Effect s call action { s with next := next, opened := opened, stored := stored } where
  next := hnext
  closed _ _ := id
  active _ _ := id
  stored := .inl hstored
  opened := hopened
  closures := .inl rfl
  handed := .inl rfl
  shut _ := .inl
  reached _ _ := .inl

theorem effect_handed (r place : ℕ) : Effect s (.recording r (some place)) action (s.hand r place) where
  next := Nat.le_refl _
  closed _ _ := id
  active _ _ := id
  stored := .inl (List.Sublist.refl _)
  opened := Nat.le_refl _
  closures := .inl rfl
  handed := .inr ⟨r, place, rfl, .inl rfl⟩
  shut _ := .inl
  reached _ _ := .inl

theorem effect_numbered (r : ℕ) :
    Effect s (.numbering r) action ({ s with opened := s.opened + 1 }.hand r s.opened) where
  next := Nat.le_refl _
  closed _ _ := id
  active _ _ := id
  stored := .inl (List.Sublist.refl _)
  opened := Nat.le_succ _
  closures := .inl rfl
  handed := .inr ⟨r, s.opened, rfl, .inr ⟨rfl, rfl, rfl⟩⟩
  shut _ := .inl
  reached _ _ := .inl

theorem effect_reached (r : ℕ) (late : Bool) (how : Use) (answers : List Answer) :
    Effect s (.inside r late how) action
      { s with reached := s.reached ++ [(r, late)], answers := answers } :=
  Frame.effect ⟨rfl, rfl, rfl, rfl, rfl, rfl, rfl⟩ fun q late' h =>
    (List.mem_append.mp h).imp_right fun h => by
      obtain ⟨rfl, rfl⟩ := Prod.mk.inj (List.mem_singleton.mp h)
      exact ⟨how, rfl⟩

theorem advance_effect (h : advance k s call action = some (call', s')) :
    Effect s call action s' := by
  cases call with
  | idle =>
    cases action with
    | «open» refused => cases refused <;> cases h <;> first | exact effect_refl | exact effect_answer _
    | acquire configured =>
      simp only [advance] at h
      split at h
      · cases h
      · split at h <;> cases h
        · exact effect_counters (Nat.le_succ _) (Nat.le_refl _) (List.Sublist.refl _)
        · exact effect_answer _
    | use r how refused =>
      simp only [advance] at h
      split at h
      · cases refused <;> cases h <;> first | exact effect_refl | exact effect_answer _
      · cases h
    | close r refused =>
      simp only [advance] at h
      split at h
      · cases refused <;> cases h <;> first | exact effect_refl | exact effect_answer _
      · cases h
    | release r =>
      simp only [advance] at h
      split at h <;> cases h
      exact effect_counters (Nat.le_refl _) (Nat.le_refl _) List.filter_sublist
    | exit r =>
      simp only [advance] at h
      split at h <;> cases h
      exact effect_resource r _ id nofun
    | _ => cases h
  | entering =>
    cases action with
    | list =>
      simp only [advance] at h
      split at h <;> cases h
      exact effect_locked _
    | _ => cases h
  | counting rest found =>
    cases action with
    | look =>
      cases rest with
      | nil => cases h
      | cons r rest =>
        simp only [advance] at h
        split at h
        · cases h
          exact effect_refl
        · split at h <;> cases h <;> exact effect_refl
    | decide =>
      cases rest with
      | cons r rest => cases h
      | nil =>
        simp only [advance] at h
        by_cases hk : k = .process
        · rw [if_pos hk] at h
          split at h <;> cases h
          · exact effect_answer _
          · exact effect_refl
        · rw [if_neg hk] at h
          split at h <;> cases h
          · exact effect_locked_answer _ _
          · exact effect_locked _
    | _ => cases rest <;> cases h
  | loading r rest found =>
    cases action with
    | look =>
      simp only [advance] at h
      split at h <;> cases h <;> exact effect_refl
    | _ => cases h
  | asking r rest found =>
    cases action with
    | look =>
      simp only [advance] at h
      split at h <;> cases h <;> exact effect_refl
    | _ => cases h
  | noting r rest found =>
    cases action with
    | note =>
      cases h
      exact effect_resource r _ id nofun
    | _ => cases h
  | checked =>
    cases action with
    | establish failed =>
      simp only [advance] at h
      split at h
      · cases h
      · cases failed <;> cases h <;> first | exact effect_refl | exact effect_answer _
    | _ => cases h
  | acquiring =>
    cases action with
    | number =>
      cases h
      exact effect_counters (Nat.le_refl _) (Nat.le_succ _) (List.Sublist.refl _)
    | _ => cases h
  | inserting place =>
    cases action with
    | insert =>
      simp only [advance] at h
      split at h <;> cases h
      exact effect_inserted place
    | _ => cases h
  | recording r place =>
    cases action with
    | record =>
      cases place <;> cases h
      · exact effect_refl
      · exact effect_handed r _
    | _ => cases h
  | numbering r =>
    cases action with
    | number =>
      cases h
      exact effect_numbered r
    | _ => cases h
  | looking r late target =>
    cases action with
    | find =>
      simp only [advance] at h
      split at h
      · cases h
      · split at h
        · cases target <;> cases h <;> exact effect_refl
        · cases h
          exact effect_answer _
    | _ => cases h
  | testing r late how =>
    cases action with
    | test =>
      simp only [advance] at h
      split at h
      · cases h
        exact effect_answer _
      · split at h <;> cases h <;> exact effect_refl
    | _ => cases h
  | trying r late =>
    cases action with
    | test =>
      simp only [advance] at h
      split at h <;> cases h
      · exact effect_answer _
      · exact effect_refl
    | _ => cases h
  | inside r late how =>
    cases action with
    | reach again =>
      simp only [advance] at h
      split at h <;> cases h <;> exact effect_reached r late how _
    | drain =>
      simp only [advance] at h
      split at h <;> cases h
      exact effect_reached r late how _
    | busy =>
      simp only [advance] at h
      split at h <;> cases h
      exact effect_answer _
    | _ => cases h
  | draining r =>
    cases action with
    | note => cases h; exact effect_drained r _
    | _ => cases h
  | closing r =>
    cases action with
    | shut =>
      simp only [advance] at h
      split at h
      · split at h <;> cases h
        · exact effect_answer _
        · exact effect_refl
      · split at h <;> cases h
        · exact effect_shut r _ (.inl rfl) ‹_›
        · exact effect_closed r
    | _ => cases h
  | swapping r =>
    cases action with
    | shut =>
      simp only [advance] at h
      split at h <;> cases h
      · exact effect_shut r _ (.inr rfl) ‹_›
      · exact effect_closed r
    | _ => cases h
  | killing r =>
    cases action with
    | kill => cases h; exact effect_refl
    | _ => cases h
  | tallying r =>
    cases action with
    | tally => cases h; exact effect_tallied r
    | _ => cases h
  | dropping r =>
    cases action with
    | shut => cases h; exact effect_closed r
    | _ => cases h
  | ending r =>
    cases action with
    | kill => cases h; exact effect_refl
    | _ => cases h

def Covered (s : Store) (ids : List ℕ) : Prop := ∀ r ∈ s.stored, s.Active r → r ∈ ids

/-- What a task may rely on where it stands. -/
def CallOk (k : Kind) (s : Store) : Call → Prop
  | .counting rest found | .noting _ rest found =>
    s.activeCount < k.maxActive ∨ Covered s (found ++ rest)
  | .loading r rest found | .asking r rest found =>
    s.activeCount < k.maxActive ∨ Covered s (found ++ r :: rest)
  | .checked | .acquiring | .inserting _ => s.activeCount < k.maxActive
  | .recording r _ | .numbering r => r < s.next
  | .looking r late _ | .testing r late _ =>
    s.Held r ∧ (late = true → (s.resource r).closed = true)
  | .trying r late | .inside r late _ => s.Held r ∧ late = false
  | .closing r | .swapping r => s.Held r
  | .killing r | .tallying r => s.Held r ∧ (s.resource r).closed = true ∧ r ∉ s.closures
  | _ => True

structure StoreOk (k : Kind) (s : Store) : Prop where
  named : ∀ r ∈ s.stored, r < s.next
  nodup : s.stored.Nodup
  limit : s.activeCount ≤ k.maxActive
  counted : ∀ r ∈ s.closures, s.Held r ∧ (s.resource r).closed = true
  once : s.closures.Nodup
  shut : ∀ r ∈ s.shut, s.Held r ∧ (s.resource r).closed = true
  held : ∀ r, s.Held r → r < s.next
  places : (s.handed.map Prod.snd).Nodup
  placed : ∀ n ∈ s.handed.map Prod.snd, n < s.opened
  unreached : ∀ r late, (r, late) ∈ s.reached → late = false

theorem covered_drop {r : ℕ} {found rest : List ℕ} (h : Covered s (found ++ r :: rest))
    (dead : ¬s.Active r) : Covered s (found ++ rest) := by
  intro q hq hactive
  have hne : q ≠ r := by
    rintro rfl
    exact dead hactive
  have := h q hq hactive
  simp only [List.mem_append, List.mem_cons] at this ⊢
  exact this.imp_right fun h => h.resolve_left hne

theorem covered_keep {r : ℕ} {found rest : List ℕ} (h : Covered s (found ++ r :: rest)) :
    Covered s ((found ++ [r]) ++ rest) := by
  rwa [List.append_assoc]

theorem count_of_covered {found : List ℕ} (nodup : s.stored.Nodup) (h : Covered s found) :
    s.activeCount ≤ found.length := by
  refine List.Subperm.length_le (List.Nodup.subperm (nodup.filter _) fun r hr => ?_)
  obtain ⟨hr, hactive⟩ := List.mem_filter.mp hr
  exact h r hr (of_decide_eq_true hactive)

theorem Effect.count_le (d : Effect s call action s') (inv : StoreOk k s)
    (sub : s'.stored.Sublist s.stored) : s'.activeCount ≤ s.activeCount := by
  have nodup : s'.stored.Nodup := inv.nodup.sublist sub
  refine List.Subperm.length_le (List.Nodup.subperm (nodup.filter _) fun r hr => ?_)
  obtain ⟨hr, hactive⟩ := List.mem_filter.mp hr
  have hr := sub.subset hr
  exact List.mem_filter.mpr ⟨hr, decide_eq_true (d.active r (inv.named r hr) (of_decide_eq_true hactive))⟩

theorem Effect.covered (d : Effect s call action s') (inv : StoreOk k s)
    (sub : s'.stored.Sublist s.stored) {ids : List ℕ} (h : Covered s ids) : Covered s' ids := by
  intro r hr hactive
  have hr := sub.subset hr
  exact h r hr (d.active r (inv.named r hr) hactive)

/-- What an open may rely on stays while nothing is inserted. -/
theorem Effect.uncounted (d : Effect s call action s') (inv : StoreOk k s)
    (sub : s'.stored.Sublist s.stored) {ids : List ℕ}
    (h : s.activeCount < k.maxActive ∨ Covered s ids) :
    s'.activeCount < k.maxActive ∨ Covered s' ids :=
  h.imp (Nat.lt_of_le_of_lt (d.count_le inv sub)) (d.covered inv sub)

theorem insert_count_le (inv : StoreOk k s) : s.insert.activeCount ≤ s.activeCount + 1 := by
  have hold : s.stored.filter (s.insert.Active ·) = s.stored.filter (s.Active ·) := by
    refine List.filter_congr fun r hr => ?_
    have hsame : s.insert.resource r = s.resource r := resource_ne _ (Nat.ne_of_lt (inv.named r hr))
    exact decide_eq_decide.mpr (by rw [Store.Active, Store.Active, hsame])
  have hsplit : s.insert.activeCount =
      (s.stored.filter (s.insert.Active ·)).length + ([s.next].filter (s.insert.Active ·)).length := by
    rw [← List.length_append, ← List.filter_append]
    rfl
  have hone := List.length_filter_le (fun r => decide (s.insert.Active r)) [s.next]
  rw [hsplit, hold]
  exact Nat.add_le_add_left hone _

theorem Effect.held (d : Effect s call action s') {r : ℕ} (h : s.Held r) : s'.Held r := by
  obtain heq | ⟨q, n, heq, -⟩ := d.handed
  · rwa [Store.Held, heq]
  · rw [Store.Held, heq, List.map_append]
    exact List.mem_append_left _ h

theorem closed_uncounted {r : ℕ} (inv : StoreOk k s) (held : s.Held r)
    (hopen : ¬(s.resource r).closed = true) :
    (s.setClosed r).Held r ∧ ((s.setClosed r).resource r).closed = true ∧
      r ∉ (s.setClosed r).closures := by
  refine ⟨held, ?_, fun hmem => hopen (inv.counted r hmem).2⟩
  rw [Store.setClosed, resource_self]

theorem advance_ok (inv : StoreOk k s) (ok : CallOk k s call)
    (h : advance k s call action = some (call', s')) : CallOk k s' call' := by
  cases call with
  | idle =>
    cases action with
    | use r how refused =>
      simp only [advance] at h
      split at h
      · rename_i hheld
        cases refused <;> cases h
        · exact ⟨hheld.2, fun hlate => (inv.shut r (of_decide_eq_true hlate)).2⟩
        · exact trivial
      · cases h
    | close r refused =>
      simp only [advance] at h
      split at h
      · rename_i hheld
        cases refused <;> cases h
        · exact ⟨hheld, nofun⟩
        · exact trivial
      · cases h
    | «open» refused => cases refused <;> cases h <;> exact trivial
    | acquire configured =>
      simp only [advance] at h
      split at h
      · cases h
      · split at h <;> cases h <;> exact trivial
    | release r =>
      simp only [advance] at h
      split at h
      · cases h
      · split at h <;> cases h <;> exact trivial
    | exit r =>
      simp only [advance] at h
      split at h <;> cases h
      exact trivial
    | _ => cases h
  | entering =>
    cases action with
    | list =>
      simp only [advance] at h
      split at h <;> cases h
      exact .inr fun r hr _ => hr
    | _ => cases h
  | counting rest found =>
    cases action with
    | look =>
      cases rest with
      | nil => cases h
      | cons r rest =>
        have ok : _ ∨ Covered s (found ++ r :: rest) := ok
        simp only [advance] at h
        split at h
        · rename_i hclosed
          cases h
          exact ok.imp_right fun h => covered_drop h fun hactive => by
            rw [hactive.1] at hclosed
            cases hclosed
        · split at h <;> cases h
          · exact ok
          · exact ok.imp_right covered_keep
    | decide =>
      cases rest with
      | cons r rest => cases h
      | nil =>
        have ok : _ ∨ Covered s (found ++ []) := ok
        rw [List.append_nil] at ok
        simp only [advance] at h
        split at h <;> cases h
        · exact trivial
        · rename_i hbelow
          have hcount : s.activeCount < k.maxActive :=
            ok.elim id fun h => Nat.lt_of_le_of_lt (count_of_covered inv.nodup h)
              (Nat.not_le.mp hbelow)
          by_cases hk : k = .process
          · rw [if_pos hk]
            exact hcount
          · rw [if_neg hk]
            exact hcount
    | _ => cases rest <;> cases h
  | loading r rest found =>
    cases action with
    | look =>
      have ok : _ ∨ Covered s (found ++ r :: rest) := ok
      simp only [advance] at h
      split at h
      · rename_i hexited
        cases h
        exact ok.imp_right fun h => covered_drop h fun hactive => by
          rw [hactive.2.1] at hexited
          cases hexited
      · cases h
        exact ok
    | _ => cases h
  | asking r rest found =>
    cases action with
    | look =>
      have ok : _ ∨ Covered s (found ++ r :: rest) := ok
      simp only [advance] at h
      split at h
      · rename_i hgone
        cases h
        exact ok.imp_right fun h => covered_drop h fun hactive => by
          rw [hactive.2.2] at hgone
          cases hgone
      · cases h
        exact ok.imp_right covered_keep
    | _ => cases h
  | noting r rest found =>
    cases action with
    | note =>
      have d := advance_effect h
      cases h
      exact d.uncounted inv (List.Sublist.refl _) ok
    | _ => cases h
  | checked =>
    cases action with
    | establish failed =>
      simp only [advance] at h
      split at h
      · cases h
      · cases failed with
        | some reason =>
          cases h
          exact trivial
        | none =>
          cases h
          split <;> exact ok
    | _ => cases h
  | acquiring =>
    cases action with
    | number => cases h; exact ok
    | _ => cases h
  | inserting place =>
    cases action with
    | insert =>
      simp only [advance] at h
      split at h <;> cases h
      exact Nat.lt_succ_self s.next
    | _ => cases h
  | recording r place =>
    cases action with
    | record =>
      cases place <;> cases h
      · exact ok
      · exact trivial
    | _ => cases h
  | numbering r =>
    cases action with
    | number => cases h; exact trivial
    | _ => cases h
  | looking r late target =>
    cases action with
    | find =>
      simp only [advance] at h
      split at h
      · cases h
      · split at h
        · cases target <;> cases h
          · exact ok.1
          · exact ok
        · cases h
          exact trivial
    | _ => cases h
  | testing r late how =>
    cases action with
    | test =>
      simp only [advance] at h
      split at h
      · cases h
        exact trivial
      · rename_i hopen
        have hlate : late = false := by
          by_contra hlate
          exact hopen (ok.2 (by simpa using hlate))
        split at h <;> cases h <;> exact ⟨ok.1, hlate⟩
    | _ => cases h
  | trying r late =>
    cases action with
    | test =>
      simp only [advance] at h
      split at h <;> cases h
      · exact trivial
      · exact ok
    | _ => cases h
  | inside r late how =>
    cases action with
    | reach again =>
      simp only [advance] at h
      split at h <;> cases h
      · exact ⟨ok.1, fun hlate => by rw [ok.2] at hlate; cases hlate⟩
      · exact trivial
    | drain | busy =>
      simp only [advance] at h
      split at h <;> cases h
      exact trivial
    | _ => cases h
  | draining r =>
    cases action with
    | note => cases h; exact trivial
    | _ => cases h
  | closing r =>
    cases action with
    | shut =>
      simp only [advance] at h
      split at h
      · split at h <;> cases h
        · exact trivial
        · exact ok
      · split at h <;> cases h
        · exact trivial
        · exact closed_uncounted inv ok ‹_›
    | _ => cases h
  | swapping r =>
    cases action with
    | shut =>
      simp only [advance] at h
      split at h <;> cases h
      · exact trivial
      · exact closed_uncounted inv ok ‹_›
    | _ => cases h
  | killing r =>
    cases action with
    | kill => cases h; exact ok
    | _ => cases h
  | tallying r =>
    cases action with
    | tally => cases h; exact trivial
    | _ => cases h
  | dropping r =>
    cases action with
    | shut => cases h; exact trivial
    | _ => cases h
  | ending r =>
    cases action with
    | kill => cases h; exact trivial
    | _ => cases h

/-- What another task may rely on stays. -/
theorem Effect.keeps {other : Call} (d : Effect s call action s') (inv : StoreOk k s)
    (ok : CallOk k s other)
    (room : action = .insert → other.opening = true → s.activeCount + 1 < k.maxActive)
    (apart : ∀ r, call = .tallying r → other.marked ≠ some r) : CallOk k s' other := by
  have closed : ∀ r, s.Held r → (s.resource r).closed = true → (s'.resource r).closed = true :=
    fun r hr => d.closed r (inv.held r hr)
  have room : other.opening = true → s'.stored.Sublist s.stored ∨ s'.activeCount < k.maxActive := by
    intro hopening
    refine d.stored.imp_right ?_
    rintro ⟨hinsert, rfl, -⟩
    exact Nat.lt_of_le_of_lt (insert_count_le inv) (room hinsert hopening)
  have fresh : ∀ r, other.marked = some r → r ∉ s.closures → r ∉ s'.closures := by
    intro r hmarked hr
    obtain heq | ⟨q, hcall, heq⟩ := d.closures
    · rwa [heq]
    · rw [heq, List.mem_append, List.mem_singleton]
      rintro (h | rfl)
      · exact hr h
      · exact apart r hcall hmarked
  cases other with
  | counting | loading | asking | noting =>
    obtain sub | hroom := room rfl
    · exact d.uncounted inv sub ok
    · exact .inl hroom
  | checked | acquiring | inserting =>
    obtain sub | hroom := room rfl
    · exact Nat.lt_of_le_of_lt (d.count_le inv sub) ok
    · exact hroom
  | recording | numbering => exact Nat.lt_of_lt_of_le ok d.next
  | looking r | testing r => exact ⟨d.held ok.1, fun hlate => closed r ok.1 (ok.2 hlate)⟩
  | trying r | inside r => exact ⟨d.held ok.1, ok.2⟩
  | closing r | swapping r => exact d.held ok
  | killing r | tallying r => exact ⟨d.held ok.1, closed r ok.1 ok.2.1, fresh r rfl ok.2.2⟩
  | idle | entering | draining | dropping | ending => exact trivial

/-- What holds of a store is kept by a task that may rely on what it does. -/
theorem Effect.store (d : Effect s call action s') (inv : StoreOk k s) (ok : CallOk k s call)
    (place : ∀ n, call.place = some n → n < s.opened ∧ n ∉ s.handed.map Prod.snd) :
    StoreOk k s' := by
  have closed : ∀ r, s.Held r → (s.resource r).closed = true → (s'.resource r).closed = true :=
    fun r hr => d.closed r (inv.held r hr)
  -- the handle that is returned
  have hands : ∀ r n, call = .recording r (some n) ∨
      call = .numbering r ∧ n = s.opened ∧ s'.opened = s.opened + 1 →
      r < s.next ∧ n < s'.opened ∧ n ∉ s.handed.map Prod.snd := by
    rintro r n (rfl | ⟨rfl, rfl, hopened⟩)
    · obtain ⟨hlt, hfresh⟩ := place n rfl
      exact ⟨ok, Nat.lt_of_lt_of_le hlt d.opened, hfresh⟩
    · refine ⟨ok, by omega, fun hmem => ?_⟩
      exact absurd (inv.placed _ hmem) (Nat.lt_irrefl _)
  constructor
  · intro r hr
    obtain sub | ⟨-, rfl, -⟩ := d.stored
    · exact Nat.lt_of_lt_of_le (inv.named r (sub.subset hr)) d.next
    · obtain hr | hr := List.mem_append.mp hr
      · exact Nat.lt_succ_of_lt (inv.named r hr)
      · rw [List.mem_singleton.mp hr]
        exact Nat.lt_succ_self s.next
  · obtain sub | ⟨-, rfl, -⟩ := d.stored
    · exact inv.nodup.sublist sub
    · refine List.nodup_append.mpr ⟨inv.nodup, List.nodup_singleton _, ?_⟩
      rintro r hr q hq rfl
      rw [List.mem_singleton.mp hq] at hr
      exact absurd (inv.named _ hr) (Nat.lt_irrefl _)
  · obtain sub | ⟨-, rfl, p, rfl⟩ := d.stored
    · exact Nat.le_trans (d.count_le inv sub) inv.limit
    · exact Nat.le_trans (insert_count_le inv) ok
  · intro r hr
    obtain heq | ⟨q, rfl, heq⟩ := d.closures
    · rw [heq] at hr
      exact ⟨d.held (inv.counted r hr).1, closed r (inv.counted r hr).1 (inv.counted r hr).2⟩
    · rw [heq] at hr
      obtain hr | hr := List.mem_append.mp hr
      · exact ⟨d.held (inv.counted r hr).1, closed r (inv.counted r hr).1 (inv.counted r hr).2⟩
      · obtain rfl := List.mem_singleton.mp hr
        exact ⟨d.held ok.1, closed r ok.1 ok.2.1⟩
  · obtain heq | ⟨q, rfl, heq⟩ := d.closures
    · rw [heq]
      exact inv.once
    · rw [heq]
      refine List.nodup_append.mpr ⟨inv.once, List.nodup_singleton _, ?_⟩
      rintro r hr q' hq rfl
      rw [List.mem_singleton.mp hq] at hr
      exact ok.2.2 hr
  · intro r hr
    obtain hr | rfl | ⟨rfl | rfl, hclosed⟩ := d.shut r hr
    · exact ⟨d.held (inv.shut r hr).1, closed r (inv.shut r hr).1 (inv.shut r hr).2⟩
    · exact ⟨d.held ok.1, closed r ok.1 ok.2.1⟩
    · exact ⟨d.held ok, closed r ok hclosed⟩
    · exact ⟨d.held ok, closed r ok hclosed⟩
  · intro r hr
    obtain heq | ⟨q, n, heq, hcall⟩ := d.handed
    · rw [Store.Held, heq] at hr
      exact Nat.lt_of_lt_of_le (inv.held r hr) d.next
    · rw [Store.Held, heq, List.map_append, List.mem_append] at hr
      obtain hr | hr := hr
      · exact Nat.lt_of_lt_of_le (inv.held r hr) d.next
      · rw [List.mem_singleton.mp hr]
        exact Nat.lt_of_lt_of_le (hands q n hcall).1 d.next
  · obtain heq | ⟨q, n, heq, hcall⟩ := d.handed
    · rw [heq]
      exact inv.places
    · rw [heq, List.map_append]
      refine List.nodup_append.mpr ⟨inv.places, List.nodup_singleton _, ?_⟩
      rintro m hm n' hn rfl
      rw [List.mem_singleton.mp hn] at hm
      exact (hands q n hcall).2.2 hm
  · intro m hm
    obtain heq | ⟨q, n, heq, hcall⟩ := d.handed
    · rw [heq] at hm
      exact Nat.lt_of_lt_of_le (inv.placed m hm) d.opened
    · rw [heq, List.map_append, List.mem_append] at hm
      obtain hm | hm := hm
      · exact Nat.lt_of_lt_of_le (inv.placed m hm) d.opened
      · rw [List.mem_singleton.mp hm]
        exact (hands q n hcall).2.1
  · intro r late hmem
    obtain hmem | ⟨how, rfl⟩ := d.reached r late hmem
    · exact inv.unreached r late hmem
    · exact ok.2

theorem advance_marked (h : advance k s call action = some (call', s')) {r : ℕ}
    (hr : call'.marked = some r) :
    s'.closures = s.closures ∧ (call.marked = some r ∨ (s.resource r).closed = false) := by
  revert h
  fun_cases advance k s call action <;> intro h <;>
    grind [Call.marked, Store.setClosed, Store.setResource]

theorem advance_place (h : advance k s call action = some (call', s')) {n : ℕ}
    (hn : call'.place = some n) : s'.handed = s.handed ∧
      (call.place = some n ∨ n = s.opened ∧ s'.opened = s.opened + 1) := by
  revert h
  fun_cases advance k s call action <;> intro h <;>
    grind [Call.place, Store.insert, Store.setResource]
end Steps

section Runs

variable {k : Kind} {s t : ThreadState Store Call} {e : ℕ × Action}

structure Kept (k : Kind) (s : ThreadState Store Call) : Prop where
  store : StoreOk k s.shared
  calls : ∀ i, CallOk k s.shared (s.calls i)
  placed : ∀ i n, (s.calls i).place = some n →
    n < s.shared.opened ∧ n ∉ s.shared.handed.map Prod.snd
  marks : ∀ i j r, (s.calls i).marked = some r → (s.calls j).marked = some r → i = j
  places : ∀ i j n, (s.calls i).place = some n → (s.calls j).place = some n → i = j

theorem kept_started : Kept k (liveSystem k).initial where
  store :=
    { named := nofun
      nodup := List.nodup_nil
      limit := Nat.zero_le _
      counted := nofun
      once := List.nodup_nil
      shut := nofun
      held := nofun
      places := List.nodup_nil
      placed := nofun
      unreached := nofun }
  calls _ := trivial
  placed := nofun
  marks := nofun
  places := nofun

theorem marked_closed {r : ℕ} {call : Call} {s : Store} (ok : CallOk k s call)
    (h : call.marked = some r) : (s.resource r).closed = true := by
  cases call with
  | killing q | tallying q =>
    obtain rfl := Option.some.inj h
    exact ok.2.1
  | _ => cases h

theorem kept_step (h : Kept k s) (unraced : Unraced k s e) (hstep : step (advance k) s e = some t) :
    Kept k t := by
  obtain ⟨i, action⟩ := e
  obtain ⟨call, hadvance, hcalls⟩ := step_cases hstep
  have own : t.calls i = call := by rw [hcalls, Function.update_self]
  have others : ∀ j, j ≠ i → t.calls j = s.calls j := fun j hj => calls_step hstep hj
  have effect := advance_effect hadvance
  have marked : ∀ r, (t.calls i).marked = some r → ∀ j, j ≠ i → (t.calls j).marked ≠ some r := by
    intro r hr j hj hmarked
    rw [own] at hr
    rw [others j hj] at hmarked
    obtain ⟨-, hbefore | hopen⟩ := advance_marked hadvance hr
    · exact hj (h.marks j i r hmarked hbefore)
    · rw [marked_closed (h.calls j) hmarked] at hopen
      cases hopen
  have place : ∀ n, (t.calls i).place = some n → ∀ j, j ≠ i → (t.calls j).place ≠ some n := by
    intro n hn j hj hplace
    rw [own] at hn
    rw [others j hj] at hplace
    obtain ⟨-, hbefore | ⟨rfl, -⟩⟩ := advance_place hadvance hn
    · exact hj (h.places j i n hplace hbefore)
    · exact absurd (h.placed j _ hplace).1 (Nat.lt_irrefl _)
  refine ⟨effect.store h.store (h.calls i) (h.placed i), fun j => ?_, fun j n hn => ?_, ?_, ?_⟩
  · by_cases hj : j = i
    · rw [hj, own]
      exact advance_ok h.store (h.calls i) hadvance
    · rw [others j hj]
      refine effect.keeps h.store (h.calls j) (fun hinsert hopening => ?_) fun r hcall hmarked => ?_
      · exact unraced hinsert j hj hopening
      · exact hj (h.marks j i r hmarked (by rw [hcall]; rfl))
  · by_cases hj : j = i
    · rw [hj, own] at hn
      obtain ⟨hsame, hbefore | ⟨rfl, hopened⟩⟩ := advance_place hadvance hn
      · rw [hsame]
        exact ⟨Nat.lt_of_lt_of_le (h.placed i n hbefore).1 effect.opened, (h.placed i n hbefore).2⟩
      · rw [hsame, hopened]
        exact ⟨Nat.lt_succ_self _, fun hmem => absurd (h.store.placed _ hmem) (Nat.lt_irrefl _)⟩
    · rw [others j hj] at hn
      obtain ⟨hlt, hfresh⟩ := h.placed j n hn
      refine ⟨Nat.lt_of_lt_of_le hlt effect.opened, ?_⟩
      obtain hsame | ⟨r, m, heq, hcall⟩ := effect.handed
      · rwa [hsame]
      · rw [heq, List.map_append, List.mem_append]
        rintro (hmem | hmem)
        · exact hfresh hmem
        · obtain rfl := List.mem_singleton.mp hmem
          obtain hcall | ⟨-, hm, -⟩ := hcall
          · exact hj (h.places j i n hn (by rw [hcall]; rfl))
          · exact absurd (hm ▸ hlt) (Nat.lt_irrefl _)
  · intro j j' r hr hr'
    by_cases hj : j = i
    · by_contra hne
      exact marked r (hj ▸ hr) j' (fun heq => hne (hj.trans heq.symm)) hr'
    by_cases hj' : j' = i
    · exact absurd hr (marked r (hj' ▸ hr') j hj)
    · rw [others j hj] at hr
      rw [others j' hj'] at hr'
      exact h.marks j j' r hr hr'
  · intro j j' n hn hn'
    by_cases hj : j = i
    · by_contra hne
      exact place n (hj ▸ hn) j' (fun heq => hne (hj.trans heq.symm)) hn'
    by_cases hj' : j' = i
    · exact absurd hn (place n (hj' ▸ hn') j hj)
    · rw [others j hj] at hn
      rw [others j' hj'] at hn'
      exact h.places j j' n hn hn'

theorem closures_le {s : Store} (h : StoreOk k s) : s.closures.length ≤ s.opened := by
  have hheld : s.closures.length ≤ (s.handed.map Prod.fst).length :=
    List.Subperm.length_le (List.Nodup.subperm h.once fun r hr => (h.counted r hr).1)
  have hplaces : (s.handed.map Prod.snd).length ≤ (List.range s.opened).length :=
    List.Subperm.length_le (List.Nodup.subperm h.places fun n hn => List.mem_range.mpr (h.placed n hn))
  rw [List.length_map] at hheld hplaces
  rw [List.length_range] at hplaces
  exact Nat.le_trans hheld hplaces

/-- While no insertion brings the active ones to the limit beside an open that has counted them,
the limit holds; closes are counted once and reached no more, whatever any tasks do. -/
theorem unraced_limits_kept (h : Reachable ((liveSystem k).restrict (Unraced k)) s) :
    LimitsKept k s.shared := by
  have kept : Kept k s := reachable_invariant (P := Kept k)
    (S := (liveSystem k).restrict (Unraced k)) kept_started
    (fun _ _ _ hs hstep => kept_step hs hstep.1 hstep.2) h
  exact ⟨kept.store.limit, closures_le kept.store, kept.store.once, kept.store.unreached⟩

def closedInTurn : List (ℕ × Action) :=
  [(0, .open none), (0, .list), (0, .decide), (0, .establish none), (0, .insert), (0, .record),
    (0, .number), (0, .use 1 .transact none), (0, .find), (0, .test), (0, .reach false),
    (0, .close 1 none), (0, .find), (0, .shut), (0, .tally), (0, .use 1 .transact none), (0, .find),
    (0, .test)]

theorem closed_device_refuses :
    LimitsKept .device (after (advance .device) (liveSystem .device).initial closedInTurn).shared ∧
      (after (advance .device) (liveSystem .device).initial closedInTurn).shared.answers =
        [.opened 1, .used 1, .closed 1, .refused .closed] := by
  refine ⟨unraced_limits_kept ?_, by decide +kernel⟩
  refine reachable_after (P := fun s => ∀ i, i ≠ 0 → s.calls i = .idle) (fun _ e => e.1 == 0) id ?_
    (reachable_initial _) (fun _ _ => rfl) (by decide +kernel)
  intro s e t hidle _ hown hstep
  have hown : e.1 = 0 := by simpa using hown
  refine ⟨⟨fun _ i hi hopening => ?_, hstep⟩, fun i hi => ?_⟩
  · have := hidle i (hown ▸ hi)
    rw [this] at hopening
    cases hopening
  · exact (calls_step hstep (hown ▸ hi)).trans (hidle i hi)

/-- An open of a task, while `opened` devices are open, up to its insertion. -/
def connect (opened task : ℕ) : List (ℕ × Action) :=
  [(task, .open none), (task, .list)] ++ List.replicate opened (task, .look) ++
    [(task, .decide), (task, .establish none)]

/-- One task connects devices until one more is within the limit; then two count the same store,
and both insert. -/
def rush : List (ℕ × Action) :=
  ((List.range 31).flatMap fun i => connect i 0 ++ [(0, .insert), (0, .record), (0, .number)]) ++
    connect 31 1 ++ connect 31 2 ++ [(1, .insert), (2, .insert)]

/-- Both opens pass the check, and together they pass the limit. -/
theorem rush_exceeds_limit :
    Reachable (liveSystem .device) (after (advance .device) (liveSystem .device).initial rush) ∧
      (after (advance .device) (liveSystem .device).initial rush).shared.activeCount = 33 ∧
      ¬LimitsKept .device (after (advance .device) (liveSystem .device).initial rush).shared := by
  have hcount : (after (advance .device) (liveSystem .device).initial rush).shared.activeCount = 33 := by
    decide +kernel
  refine ⟨reachable_after (P := fun _ => True) (fun _ _ => true) id
    (fun _ _ _ _ _ _ h => ⟨h, trivial⟩) (reachable_initial _) trivial (by decide +kernel),
    hcount, fun h => ?_⟩
  have := h.limit
  rw [hcount] at this
  exact absurd this (by decide)

end Runs

end LiveResources
