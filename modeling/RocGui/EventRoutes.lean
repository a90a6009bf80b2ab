import Mathlib.Algebra.Ring.Nat
import Mathlib.Tactic.Common
import RocGui.Transitions

/-! The codes of event routes: a node id with at most one of four high bits, which says what happened to
the node. The ids are given out by the staging builder. -/
namespace EventRoutes

open Transitions

section Definitions

def submitEventBit : UInt64 := (1 : UInt64) <<< 63

def hoverEnterEventBit : UInt64 := (1 : UInt64) <<< 62

def hoverExitEventBit : UInt64 := (1 : UInt64) <<< 61

def shortcutEventBit : UInt64 := (1 : UInt64) <<< 60

inductive EventKind where
  | own | submit | hoverEnter | hoverExit | shortcut
  deriving DecidableEq, Repr

def EventKind.bit : EventKind → UInt64
  | .own => 0
  | .submit => submitEventBit
  | .hoverEnter => hoverEnterEventBit
  | .hoverExit => hoverExitEventBit
  | .shortcut => shortcutEventBit

def route (id : UInt64) (kind : EventKind) : UInt64 := id ||| kind.bit

def routeBits : UInt64 := submitEventBit ||| hoverEnterEventBit ||| hoverExitEventBit ||| shortcutEventBit

/-- The node that `cycle_target` looks up. -/
def target (route : UInt64) : UInt64 := route &&& ~~~routeBits

def routeKind (route : UInt64) : Option EventKind :=
  [.own, .submit, .hoverEnter, .hoverExit, .shortcut].find? fun kind => kind.bit = route &&& routeBits

structure Builder where
  nextNodeId : UInt64
  issued : List UInt64

def following (id : UInt64) : Option UInt64 :=
  (if id.toNat + 1 < 2 ^ 64 then some (id + 1) else none).filter fun next => next < hoverExitEventBit

/-- `stage_node`, as far as it gives out ids. -/
def allocation : System Builder Unit where
  initial := ⟨1, []⟩
  Step s _ t := ∃ next, following s.nextNodeId = some next ∧ t = ⟨next, s.issued ++ [s.nextNodeId]⟩

/-- Every code names one node and one kind of event, and reading it gives them back. -/
structure Exact (s : Builder) : Prop where
  distinct : ∀ id ∈ s.issued, ∀ other ∈ s.issued, ∀ kind kind' : EventKind,
    route id kind = route other kind' → id = other ∧ kind = kind'
  read : ∀ id ∈ s.issued, ∀ kind : EventKind,
    target (route id kind) = id ∧ routeKind (route id kind) = some kind

end Definitions

section Codes

variable {id : UInt64} {kind : EventKind}

theorem id_bits : ~~~routeBits = UInt64.ofNat (2 ^ 60 - 1) := by decide

theorem target_lt (code : UInt64) : (target code).toNat < 2 ^ 60 := by
  rw [target, id_bits, UInt64.toNat_and, UInt64.toNat_ofNat_of_lt' (by decide), Nat.and_two_pow_sub_one_eq_mod]
  exact Nat.mod_lt _ (by decide)

theorem target_id (h : id.toNat < 2 ^ 60) : id &&& ~~~routeBits = id := by
  apply UInt64.toNat_inj.mp
  rw [id_bits, UInt64.toNat_and, UInt64.toNat_ofNat_of_lt' (by decide), Nat.and_two_pow_sub_one_eq_mod]
  exact Nat.mod_eq_of_lt h

theorem id_without_bits (h : id.toNat < 2 ^ 60) : id &&& routeBits = 0 := by
  rw [← target_id h, UInt64.and_assoc]
  have none : ~~~routeBits &&& routeBits = 0 := by decide
  rw [none, UInt64.and_zero]

theorem bit_apart (kind : EventKind) : kind.bit &&& ~~~routeBits = 0 ∧ kind.bit &&& routeBits = kind.bit := by
  cases kind <;> decide

theorem bit_kind (kind : EventKind) :
    ([.own, .submit, .hoverEnter, .hoverExit, .shortcut].find? fun k : EventKind => k.bit = kind.bit) =
      some kind := by
  cases kind <;> decide

theorem or_and (a b mask : UInt64) : (a ||| b) &&& mask = (a &&& mask) ||| (b &&& mask) := by
  apply UInt64.toNat_inj.mp
  simp only [UInt64.toNat_and, UInt64.toNat_or]
  exact Nat.and_or_distrib_right ..

/-- A code is read back when the id leaves the bits of the kinds free. -/
theorem route_read (h : id.toNat < 2 ^ 60) (kind : EventKind) :
    target (route id kind) = id ∧ routeKind (route id kind) = some kind := by
  obtain ⟨hid, hbits⟩ := bit_apart kind
  constructor
  · rw [target, route, or_and, target_id h, hid, UInt64.or_zero]
  · rw [routeKind, route, or_and, id_without_bits h, hbits, UInt64.zero_or]
    exact bit_kind kind

end Codes

section Allocation

variable {s t : Builder}

theorem following_some {id next : UInt64} (h : following id = some next) :
    next.toNat = id.toNat + 1 ∧ next.toNat < 2 ^ 61 := by
  obtain ⟨hnext, hlt⟩ := Option.filter_eq_some_iff.mp h
  split at hnext
  · rename_i hmax
    obtain rfl := Option.some.inj hnext
    have hto : (id + 1).toNat = id.toNat + 1 := by
      rw [UInt64.toNat_add]
      exact Nat.mod_eq_of_lt hmax
    have hbit : hoverExitEventBit.toNat = 2 ^ 61 := by decide
    have hlt' := UInt64.lt_iff_toNat_lt.mp (of_decide_eq_true hlt)
    rw [hbit] at hlt'
    exact ⟨hto, hlt'⟩
  · cases hnext

theorem following_exists {id : UInt64} (h : id.toNat + 1 < 2 ^ 61) : ∃ next, following id = some next := by
  have hmax : id.toNat + 1 < 2 ^ 64 := by omega
  refine ⟨id + 1, Option.filter_eq_some_iff.mpr ⟨if_pos hmax, ?_⟩⟩
  have hbit : hoverExitEventBit.toNat = 2 ^ 61 := by decide
  have hto : (id + 1).toNat = id.toNat + 1 := by
    rw [UInt64.toNat_add]
    exact Nat.mod_eq_of_lt hmax
  apply decide_eq_true
  rw [UInt64.lt_iff_toNat_lt, hto, hbit]
  exact h

/-- The ids given out are those from one up to the next. -/
structure Counted (s : Builder) : Prop where
  positive : 0 < s.nextNodeId.toNat
  issued : ∀ id, id ∈ s.issued ↔ 0 < id.toNat ∧ id.toNat < s.nextNodeId.toNat

theorem counted_initial : Counted allocation.initial := by
  constructor
  · decide
  · intro id
    have hone : (1 : UInt64).toNat = 1 := rfl
    change id ∈ [] ↔ 0 < id.toNat ∧ id.toNat < (1 : UInt64).toNat
    rw [hone]
    constructor
    · intro h
      cases h
    · intro h
      omega

theorem counted_step {e : Unit} (h : Counted s) (step : allocation.Step s e t) : Counted t := by
  obtain ⟨next, hnext, rfl⟩ := step
  obtain ⟨hto, -⟩ := following_some hnext
  have hpositive := h.positive
  constructor
  · change 0 < next.toNat
    omega
  · intro id
    rw [List.mem_append, List.mem_singleton, h.issued, ← UInt64.toNat_inj]
    change _ ↔ 0 < id.toNat ∧ id.toNat < next.toNat
    omega

theorem counted (h : Reachable allocation s) : Counted s :=
  reachable_invariant counted_initial (fun _ _ _ hs step => counted_step hs step) h

theorem exact_below (s : Builder) : Exact s ↔ ∀ id ∈ s.issued, id.toNat < 2 ^ 60 := by
  constructor
  · intro exact id hid
    obtain ⟨hread, -⟩ := exact.read id hid .own
    rw [← hread]
    exact target_lt _
  · intro small
    constructor
    · intro id hid other hother kind kind' heq
      obtain ⟨hid', hkind⟩ := route_read (small id hid) kind
      obtain ⟨hother', hkind'⟩ := route_read (small other hother) kind'
      rw [heq] at hid' hkind
      exact ⟨hid'.symm.trans hother', Option.some.inj (hkind.symm.trans hkind')⟩
    · intro id hid kind
      exact route_read (small id hid) kind

/-- In every state of the builder the codes of the ids given out are exact, if and only if the ids have
not gone past the bit of the shortcuts. -/
theorem routes_exact_iff (h : Reachable allocation s) : Exact s ↔ s.nextNodeId ≤ shortcutEventBit := by
  have hbit : shortcutEventBit.toNat = 2 ^ 60 := by decide
  have hcounted := counted h
  rw [exact_below, UInt64.le_iff_toNat_le, hbit]
  constructor
  · intro small
    by_contra hpast
    have hissued : shortcutEventBit ∈ s.issued := by
      rw [hcounted.issued, hbit]
      omega
    have := small _ hissued
    omega
  · intro hnext id hid
    have := (hcounted.issued id).mp hid
    omega

/-- The builder after its first two ids. -/
theorem first_exact : Exact ⟨3, [1, 2]⟩ := by
  have first : allocation.Step allocation.initial () ⟨2, [1]⟩ := ⟨2, by decide, rfl⟩
  have second : allocation.Step ⟨2, [1]⟩ () ⟨3, [1, 2]⟩ := ⟨3, by decide, rfl⟩
  have reached := reachable_step (reachable_step (reachable_initial allocation) first) second
  exact (routes_exact_iff reached).mpr (by decide)

theorem every_id_issued (n : ℕ) (hn : n + 1 < 2 ^ 61) :
    ∃ s, Reachable allocation s ∧ s.nextNodeId.toNat = n + 1 := by
  induction n with
  | zero => exact ⟨_, reachable_initial _, rfl⟩
  | succ n ih =>
    obtain ⟨s, hs, hto⟩ := ih (by omega)
    have hroom : s.nextNodeId.toNat + 1 < 2 ^ 61 := by omega
    obtain ⟨next, hnext⟩ := following_exists hroom
    obtain ⟨hfollows, -⟩ := following_some hnext
    refine ⟨_, reachable_step (e := ()) hs ⟨next, hnext, rfl⟩, ?_⟩
    change next.toNat = _
    omega

/-- One node's own event and its shortcut have one code. -/
theorem shortcut_routes_collide : ¬∀ s, Reachable allocation s → Exact s := by
  intro all
  obtain ⟨s, hs, hto⟩ := every_id_issued (2 ^ 60) (by decide)
  have hid : shortcutEventBit ∈ s.issued := by
    rw [(counted hs).issued, hto]
    decide
  have same : route shortcutEventBit .own = route shortcutEventBit .shortcut := by decide
  obtain ⟨-, hkind⟩ := (all s hs).distinct _ hid _ hid .own .shortcut same
  cases hkind

end Allocation

end EventRoutes
