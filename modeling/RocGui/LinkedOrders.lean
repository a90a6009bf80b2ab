import Mathlib.Data.List.Basic
import Mathlib.Data.List.Induction
import Mathlib.Data.List.Nodup
import Mathlib.Logic.Basic

/-! Doubly linked lists whose cells are found by key, with no assumption on what
else a cell holds: only its two neighbours matter here. -/
namespace LinkedOrders

@[ext]
structure Link (K : Type*) where
  previous : Option K
  next : Option K
  deriving DecidableEq, Repr

abbrev Links (K : Type*) := K → Option (Link K)

variable {K : Type*} {links links' : Links K}

/-- The cells of `ks` in a row, entered from `p` and left towards `n`. -/
def Chained (links : Links K) : Option K → List K → Option K → Prop
  | _, [], _ => True
  | p, k :: ks, n => links k = some ⟨p, ks.head?.or n⟩ ∧ Chained links (some k) ks n

theorem chained_append {p n : Option K} {xs ys : List K} :
    Chained links p (xs ++ ys) n ↔
      Chained links p xs (ys.head?.or n) ∧ Chained links (xs.getLast?.or p) ys n := by
  induction xs generalizing p with
  | nil => simp [Chained]
  | cons x xs ih =>
    simp only [List.cons_append, Chained, ih, and_assoc, List.head?_append, Option.or_assoc,
      List.getLast?_cons, Option.some_or]
    cases xs.getLast? <;> rfl

theorem chained_congr {p n : Option K} {ks : List K} (same : ∀ k ∈ ks, links' k = links k)
    (h : Chained links p ks n) : Chained links' p ks n := by
  induction ks generalizing p with
  | nil => trivial
  | cons k ks ih =>
    refine ⟨(same k (by simp)).trans h.1, ih (fun x hx => same x (by simp [hx])) h.2⟩

theorem chained_at {p n : Option K} {xs ys : List K} {k : K}
    (h : Chained links p (xs ++ k :: ys) n) :
    links k = some ⟨xs.getLast?.or p, ys.head?.or n⟩ := (chained_append.mp h).2.1

section Splice

variable [DecidableEq K]

def setNext (links : Links K) (at_ target : Option K) : Links K :=
  fun k => if at_ = some k then (links k).map fun l => ⟨l.previous, target⟩ else links k

def setPrevious (links : Links K) (at_ target : Option K) : Links K :=
  fun k => if at_ = some k then (links k).map fun l => ⟨target, l.next⟩ else links k

theorem set_next_away {at_ target : Option K} {k : K} (h : at_ ≠ some k) :
    setNext links at_ target k = links k := if_neg h

theorem set_previous_away {at_ target : Option K} {k : K} (h : at_ ≠ some k) :
    setPrevious links at_ target k = links k := if_neg h

theorem chained_set_next {p n : Option K} {ks : List K} (x : Option K) (distinct : ks.Nodup)
    (h : Chained links p ks n) : Chained (setNext links ks.getLast? x) p ks x := by
  induction ks using List.reverseRecOn with
  | nil => trivial
  | append_singleton as l _ =>
    rw [List.nodup_append] at distinct
    obtain ⟨ha, hl⟩ := chained_append.mp h
    refine chained_append.mpr ⟨chained_congr (fun k hk => set_next_away ?_) ha, ?_, trivial⟩
    · simpa using (distinct.2.2 k hk l (by simp)).symm
    · simp [setNext, hl.1]

theorem chained_set_previous {p n : Option K} {ks : List K} (x : Option K) (distinct : ks.Nodup)
    (h : Chained links p ks n) : Chained (setPrevious links ks.head? x) x ks n := by
  cases ks with
  | nil => trivial
  | cons k ks =>
    rw [List.nodup_cons] at distinct
    refine ⟨by simp [setPrevious, h.1], chained_congr (fun q hq => set_previous_away ?_) h.2⟩
    rintro heq
    obtain rfl : k = q := by simpa using heq
    exact distinct.1 hq

/-- The two redirections that join two runs of cells, whatever lay between them. -/
def splice (links : Links K) (left right x y : Option K) : Links K :=
  setPrevious (setNext links left x) right y

theorem splice_away {left right x y : Option K} {k : K} (hl : left ≠ some k)
    (hr : right ≠ some k) : splice links left right x y k = links k :=
  (set_previous_away hr).trans (set_next_away hl)

theorem chained_splice {a b : Option K} {xs ys : List K} (x y : Option K)
    (distinct : (xs ++ ys).Nodup) (hx : Chained links none xs a) (hy : Chained links b ys none) :
    Chained (splice links xs.getLast? ys.head? x y) none xs x ∧
      Chained (splice links xs.getLast? ys.head? x y) y ys none := by
  rw [List.nodup_append] at distinct
  obtain ⟨dx, dy, apart⟩ := distinct
  constructor
  · refine chained_congr (fun k hk => set_previous_away fun h => ?_) (chained_set_next x dx hx)
    exact apart k hk k (List.mem_of_mem_head? h) rfl
  · refine chained_set_previous y dy (chained_congr (fun k hk => set_next_away fun h => ?_) hy)
    exact apart k (List.mem_of_getLast? h) k hk rfl

end Splice

/-- The cells from `head` to `tail` are exactly `ks`, in order. -/
structure Threaded (links : Links K) (head tail : Option K) (ks : List K) : Prop where
  distinct : ks.Nodup
  head : head = ks.head?
  tail : tail = ks.getLast?
  chained : Chained links none ks none

theorem threaded_congr {head tail : Option K} {ks : List K}
    (same : ∀ k ∈ ks, links' k = links k) (h : Threaded links head tail ks) :
    Threaded links' head tail ks :=
  ⟨h.distinct, h.head, h.tail, chained_congr same h.chained⟩

theorem threaded_at {head tail : Option K} {xs ys : List K} {k : K}
    (h : Threaded links head tail (xs ++ k :: ys)) :
    links k = some ⟨xs.getLast?, ys.head?⟩ := by simpa using chained_at h.chained

section Edits

variable [DecidableEq K] {head tail : Option K} {xs ys : List K} {k : K}

/-- Where the end pointer goes when the cell it would name is `at_`. -/
def redirect (at_ target end_ : Option K) : Option K := if at_ = none then target else end_

theorem unlink_threaded (h : Threaded links head tail (xs ++ k :: ys)) :
    Threaded (splice links xs.getLast? ys.head? ys.head? xs.getLast?)
      (redirect xs.getLast? ys.head? head) (redirect ys.head? xs.getLast? tail) (xs ++ ys) := by
  have distinct : (xs ++ ys).Nodup := h.distinct.sublist (by simp)
  obtain ⟨hx, hy⟩ := chained_append.mp h.chained
  obtain ⟨hx, hy⟩ := chained_splice ys.head? xs.getLast? distinct hx hy.2
  refine ⟨distinct, ?_, ?_, chained_append.mpr ⟨by simpa using hx, by simpa using hy⟩⟩
  · rw [h.head]
    cases xs <;> simp [redirect, List.getLast?_cons]
  · rw [h.tail]
    cases ys <;> simp [redirect, List.getLast?_append, List.getLast?_cons]

theorem link_threaded (h : Threaded links head tail (xs ++ ys)) (fresh : k ∉ xs ++ ys)
    (same : ∀ q ∈ xs ++ ys,
      links' q = splice links xs.getLast? ys.head? (some k) (some k) q)
    (placed : links' k = some ⟨xs.getLast?, ys.head?⟩) :
    Threaded links' (redirect xs.getLast? (some k) head) (redirect ys.head? (some k) tail)
      (xs ++ k :: ys) := by
  obtain ⟨hx, hy⟩ := chained_append.mp h.chained
  obtain ⟨hx, hy⟩ := chained_splice (some k) (some k) h.distinct hx hy
  have hx := chained_congr (fun q hq => same q (List.mem_append_left ys hq)) hx
  have hy := chained_congr (fun q hq => same q (List.mem_append_right xs hq)) hy
  refine ⟨?_, ?_, ?_, chained_append.mpr ⟨by simpa using hx, by simpa using placed, hy⟩⟩
  · exact List.nodup_middle.mpr (List.nodup_cons.mpr ⟨fresh, h.distinct⟩)
  · rw [h.head]
    cases xs <;> simp [redirect, List.getLast?_cons]
  · rw [h.tail]
    cases ys <;> simp [redirect, List.getLast?_append, List.getLast?_cons]

end Edits

end LinkedOrders
