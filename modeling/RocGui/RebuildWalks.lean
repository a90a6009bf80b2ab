import Mathlib.Algebra.Order.BigOperators.Group.List
import Mathlib.Algebra.Order.Group.Nat
import Mathlib.Algebra.Ring.Nat
import Mathlib.Data.List.Induction
import RocGui.Methods

/-! Rebuilding a tree into another with an explicit stack: a node is taken apart, its children are
rebuilt, and what became of the node takes them back. -/
namespace RebuildWalks

open Methods

/-- How a tree is taken apart and put together. A node has as many nodes as its children have, and one
more. -/
structure Rebuilding (E S T ε : Type) where
  split : E → S × List E
  shell : S → Except (Failure ε) T
  attach : T → List T → Except (Failure ε) T
  nodes : E → ℕ
  counted : ∀ e, nodes e = ((split e).2.map nodes).sum + 1

inductive Work (E T : Type) where
  | visit (e : E)
  | finish (shell : T) (count : ℕ)

section Lists

variable {X ε : Type}

def pop (message : String) (values : List X) : Except (Failure ε) (X × List X) :=
  match values.getLast? with
  | none => .error (.panic message)
  | some value => .ok (value, values.dropLast)

@[simp] theorem pop_append (message : String) (values : List X) (value : X) :
    (pop message (values ++ [value]) : Except (Failure ε) _) = .ok (value, values) := by
  simp [pop]

def reverseFrom (values : List X) : ℕ → List X → Except (Failure ε) (List X)
  | 0, result => .ok result
  | remaining + 1, result =>
    match values[remaining]? with
    | none => .error (.panic "invalid lift list")
    | some value => reverseFrom values remaining (result ++ [value])

def liftReverse (values : List X) : Except (Failure ε) (List X) := reverseFrom values values.length []

theorem reverse_from (values result : List X) {n : ℕ} (hn : n ≤ values.length) :
    (reverseFrom values n result : Except (Failure ε) _) = .ok (result ++ (values.take n).reverse) := by
  induction n generalizing result with
  | zero => simp [reverseFrom]
  | succ n ih =>
    have hlt : n < values.length := by omega
    rw [reverseFrom, List.getElem?_eq_getElem hlt]
    dsimp only
    rw [ih _ hlt.le, List.append_assoc, List.take_succ_eq_append_getElem hlt, List.reverse_append]
    rfl

theorem lift_reverse (values : List X) : (liftReverse values : Except (Failure ε) _) = .ok values.reverse := by
  rw [liftReverse, reverse_from values [] le_rfl, List.take_length, List.nil_append]

/-- As many of the completed values as a node has children, the last first. -/
def collect : ℕ → List X → List X → Except (Failure ε) (List X × List X)
  | 0, completed, children => .ok (completed, children)
  | count + 1, completed, children => do
    let (child, completed) ← pop "missing lifted child" completed
    collect count completed (children ++ [child])

theorem collect_append (completed values children : List X) :
    (collect values.length (completed ++ values) children : Except (Failure ε) _) =
      .ok (completed, children ++ values.reverse) := by
  induction values using List.reverseRecOn generalizing children with
  | nil => simp [collect]
  | append_singleton values value ih =>
    rw [List.length_append, List.length_singleton, collect, ← List.append_assoc, pop_append]
    dsimp only [bind, Except.bind]
    rw [ih, List.reverse_append, List.append_assoc]
    rfl

end Lists

namespace Rebuilding

variable {E S T ε : Type} (R : Rebuilding E S T ε)

/-- Until nothing is pending, the last work is done. -/
def loop : ℕ → List (Work E T) → List T → Except (Failure ε) (List T)
  | _, [], completed => .ok completed
  | 0, _ :: _, _ => .error .diverges
  | fuel + 1, pending, completed => do
    let (work, pending) ← pop "missing lift work" pending
    match work with
    | .visit current => do
      let shell ← R.shell (R.split current).1
      let children ← liftReverse (R.split current).2
      loop fuel (pending ++ [.finish shell (R.split current).2.length] ++ children.map .visit) completed
    | .finish shell count => do
      let (completed, children) ← collect count completed []
      let children ← liftReverse children
      let lifted ← R.attach shell children
      loop fuel pending (completed ++ [lifted])

def run (e : E) : Except (Failure ε) T := do
  let completed ← R.loop (2 * R.nodes e) [.visit e] []
  match completed.getLast? with
  | none => .error (.panic "missing lifted result")
  | some lifted => .ok lifted

theorem child_fewer {e c : E} (hc : c ∈ (R.split e).2) : R.nodes c < R.nodes e := by
  rw [R.counted e]
  exact Nat.lt_succ_of_le (List.single_le_sum (fun _ _ => Nat.zero_le _) _ (List.mem_map_of_mem hc))

def rebuild (e : E) : Except (Failure ε) T := do
  let shell ← R.shell (R.split e).1
  let children ← (R.split e).2.attach.mapM fun c => rebuild c.1
  R.attach shell children
termination_by R.nodes e
decreasing_by exact R.child_fewer c.2

theorem rebuild_eq (e : E) : R.rebuild e = (do
    let shell ← R.shell (R.split e).1
    let children ← (R.split e).2.mapM R.rebuild
    R.attach shell children) := by
  rw [rebuild, List.mapM_subtype (g := R.rebuild) fun c hc => rfl, List.unattach_attach]

theorem mapM_congr {X Y : Type} {f g : X → Except (Failure ε) Y} {xs : List X} (h : ∀ x ∈ xs, f x = g x) :
    xs.mapM f = xs.mapM g := by
  induction xs with
  | nil => rfl
  | cons x xs ih =>
    obtain ⟨hx, hxs⟩ := List.forall_mem_cons.mp h
    rw [List.mapM_cons, List.mapM_cons, hx, ih hxs]

/-- No other function follows this recursion. -/
theorem rebuild_unique {f : E → Except (Failure ε) T} (hf : ∀ e, f e = (do
    let shell ← R.shell (R.split e).1
    let children ← (R.split e).2.mapM f
    R.attach shell children)) (e : E) : f e = R.rebuild e := by
  induction hn : R.nodes e using Nat.strong_induction_on generalizing e with
  | _ n ih =>
    subst hn
    have hchildren : (R.split e).2.mapM f = (R.split e).2.mapM R.rebuild :=
      mapM_congr fun c hc => ih (R.nodes c) (R.child_fewer hc) c rfl
    rw [hf, rebuild_eq, hchildren]

theorem loop_step (fuel : ℕ) (work : Work E T) (pending : List (Work E T)) (completed : List T) :
    R.loop (fuel + 1) (pending ++ [work]) completed = (match work with
    | .visit current => do
      let shell ← R.shell (R.split current).1
      let children ← liftReverse (R.split current).2
      R.loop fuel (pending ++ [.finish shell (R.split current).2.length] ++ children.map .visit) completed
    | .finish shell count => do
      let (completed, children) ← collect count completed []
      let children ← liftReverse children
      let lifted ← R.attach shell children
      R.loop fuel pending (completed ++ [lifted])) := by
  rw [loop.eq_3 _ _ _ _ (by simp), pop_append]
  rfl

theorem mapM_length {X Y : Type} {f : X → Except (Failure ε) Y} {xs : List X} {ys : List Y}
    (h : xs.mapM f = .ok ys) : ys.length = xs.length := by
  induction xs generalizing ys with
  | nil =>
    obtain rfl := Except.ok.inj h
    rfl
  | cons x xs ih =>
    rw [List.mapM_cons] at h
    cases hx : f x with
    | error e =>
      rw [hx] at h
      cases h
    | ok y =>
      cases hxs : xs.mapM f with
      | error e =>
        rw [hx, hxs] at h
        cases h
      | ok rest =>
        rw [hx, hxs] at h
        obtain rfl := Except.ok.inj h
        rw [List.length_cons, ih hxs, List.length_cons]

theorem loop_visits {es : List E} (hes : ∀ e ∈ es, ∀ k pending completed,
    R.loop (2 * R.nodes e + k) (pending ++ [.visit e]) completed =
      R.rebuild e >>= fun lifted => R.loop k pending (completed ++ [lifted]))
    (k : ℕ) (pending : List (Work E T)) (completed : List T) :
    R.loop (2 * (es.map R.nodes).sum + k) (pending ++ es.reverse.map .visit) completed =
      es.mapM R.rebuild >>= fun lifted => R.loop k pending (completed ++ lifted) := by
  induction es generalizing completed with
  | nil => simp
  | cons e es ih =>
    obtain ⟨he, hes⟩ := List.forall_mem_cons.mp hes
    have hfuel : 2 * ((e :: es).map R.nodes).sum + k = 2 * R.nodes e + (2 * (es.map R.nodes).sum + k) := by
      rw [List.map_cons, List.sum_cons]
      omega
    have hpending : pending ++ (e :: es).reverse.map Work.visit =
        pending ++ es.reverse.map Work.visit ++ [(.visit e : Work E T)] := by simp
    rw [hfuel, hpending, he, List.mapM_cons, bind_assoc]
    refine bind_congr fun lifted => ?_
    rw [ih hes, bind_assoc]
    refine bind_congr fun rest => ?_
    rw [pure_bind, List.append_assoc, List.singleton_append]

theorem loop_visit (e : E) : ∀ k pending completed,
    R.loop (2 * R.nodes e + k) (pending ++ [.visit e]) completed =
      R.rebuild e >>= fun lifted => R.loop k pending (completed ++ [lifted]) := by
  induction hn : R.nodes e using Nat.strong_induction_on generalizing e with
  | _ n ih =>
    subst hn
    intro k pending completed
    have hchildren := R.loop_visits fun c hc => ih (R.nodes c) (R.child_fewer hc) c rfl
    have hfuel : 2 * R.nodes e + k = 2 * ((R.split e).2.map R.nodes).sum + (k + 1) + 1 := by
      rw [R.counted e]
      omega
    rw [hfuel, loop_step, rebuild_eq]
    dsimp only
    rw [bind_assoc]
    refine bind_congr fun shell => ?_
    rw [lift_reverse]
    dsimp only [bind, Except.bind]
    rw [hchildren]
    cases hkids : (R.split e).2.mapM R.rebuild with
    | error e => rfl
    | ok kids =>
      have hlength := mapM_length hkids
      dsimp only [bind, Except.bind]
      rw [loop_step, ← hlength]
      dsimp only
      rw [collect_append, List.nil_append]
      dsimp only [bind, Except.bind]
      rw [lift_reverse, List.reverse_reverse]

/-- The walk ends, and does what the recursion does. -/
theorem run_rebuild (e : E) : R.run e = R.rebuild e := by
  have hvisit := R.loop_visit e 0 [] []
  rw [Nat.add_zero, List.nil_append] at hvisit
  rw [run, hvisit]
  cases R.rebuild e with
  | error e => rfl
  | ok lifted =>
    have hdone : R.loop 0 [] ([] ++ [lifted]) = .ok [lifted] := rfl
    dsimp only [bind, Except.bind]
    rw [hdone]
    rfl

end Rebuilding

end RebuildWalks
