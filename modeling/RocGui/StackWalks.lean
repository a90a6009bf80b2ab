import RocGui.PointerTrees

/-! Walks of a tree with an explicit stack: what a walk down collects, and in which
order a walk that also leaves its nodes leaves them. -/
namespace StackWalks

open PointerTrees

section Leaving

variable {α : Type*} {below : α → List α} {seen seen' : α → Prop}

/-- Entries are entered (`false`) or left (`true`) from the front; every node is left
after its children were met. -/
def Guarded (below : α → List α) : (α → Prop) → List (α × Bool) → Prop
  | _, [] => True
  | seen, (a, leaving) :: rest =>
    (leaving = true → ∀ c ∈ below a, seen c) ∧ Guarded below (fun c => seen c ∨ c = a) rest

theorem guarded_mono (h : ∀ c, seen c → seen' c) {es : List (α × Bool)}
    (g : Guarded below seen es) : Guarded below seen' es := by
  induction es generalizing seen seen' with
  | nil => trivial
  | cons e es ih =>
    exact ⟨fun leaving c hc => h c (g.1 leaving c hc), ih (fun c => Or.imp_left (h c)) g.2⟩

theorem guarded_append {xs ys : List (α × Bool)} : Guarded below seen (xs ++ ys) ↔
    Guarded below seen xs ∧ Guarded below (fun c => seen c ∨ c ∈ xs.map Prod.fst) ys := by
  induction xs generalizing seen with
  | nil => simp [Guarded]
  | cons x xs ih =>
    simp only [List.cons_append, Guarded, ih, List.map_cons, List.mem_cons, or_assoc, and_assoc]

theorem guarded_entries (cs : List α) : Guarded below seen (cs.map fun c => (c, false)) := by
  induction cs generalizing seen with
  | nil => trivial
  | cons c cs ih => exact ⟨fun h => absurd h Bool.false_ne_true, ih⟩

/-- A node that counts as seen need not be entered. -/
theorem guarded_skip {a : α} {leaving : Bool} (ha : seen a) {es : List (α × Bool)}
    (g : Guarded below seen ((a, leaving) :: es)) : Guarded below seen es := by
  refine guarded_mono (fun c hc => ?_) g.2
  rcases hc with hc | rfl
  · exact hc
  · exact ha

theorem guarded_descend {a : α} {es : List (α × Bool)}
    (g : Guarded below seen ((a, false) :: es)) :
    Guarded below seen ((below a).map (fun c => (c, false)) ++ (a, true) :: es) := by
  refine guarded_append.mpr ⟨guarded_entries _, fun _ c hc => ?_, guarded_mono ?_ g.2⟩
  · exact .inr (List.mem_map.mpr ⟨(c, false), List.mem_map_of_mem hc, rfl⟩)
  · rintro c (hc | rfl)
    · exact .inl (.inl hc)
    · exact .inr rfl

end Leaving

section Collecting

variable {α L : Type*} {F : Forest α L} {stop : α → Prop} {pending walked met : List α}

/-- A walk from `pending` that collects `walked` and stops at the nodes of `met`. -/
inductive Walked (F : Forest α L) (stop : α → Prop) : List α → List α → List α → Prop where
  | done : Walked F stop [] [] []
  | stop {a : α} {pending walked met : List α} : stop a → Walked F stop pending walked met →
    Walked F stop (a :: pending) walked (a :: met)
  | enter {a : α} {children pending walked met : List α} : ¬stop a →
    children.Perm ((F.kids a).map Prod.fst) → Walked F stop (children ++ pending) walked met →
    Walked F stop (a :: pending) (a :: walked) met

theorem mem_children {a c : α} {children : List α} (h : children.Perm ((F.kids a).map Prod.fst)) :
    c ∈ children ↔ F.Child a c := by
  rw [h.mem_iff, List.mem_map]
  exact ⟨fun ⟨p, hp, heq⟩ => ⟨p.2, heq ▸ hp⟩, fun ⟨l, hl⟩ => ⟨(c, l), hl, rfl⟩⟩

namespace Walked

theorem pending_met (h : Walked F stop pending walked met) {a : α} (ha : a ∈ pending) :
    a ∈ walked ∨ a ∈ met := by
  induction h with
  | done => cases ha
  | stop _ _ ih =>
    rcases List.mem_cons.mp ha with rfl | ha
    · simp
    · exact (ih ha).imp_right (List.mem_cons_of_mem _)
  | enter _ _ _ ih =>
    rcases List.mem_cons.mp ha with rfl | ha
    · simp
    · exact (ih (List.mem_append_right _ ha)).imp_left (List.mem_cons_of_mem _)

theorem closed (h : Walked F stop pending walked met) {a c : α} (ha : a ∈ walked)
    (hc : F.Child a c) : c ∈ walked ∨ c ∈ met := by
  induction h with
  | done => cases ha
  | stop _ _ ih => exact (ih ha).imp_right (List.mem_cons_of_mem _)
  | enter _ perm rest ih =>
    rcases List.mem_cons.mp ha with rfl | ha
    · exact (rest.pending_met (List.mem_append_left _ ((mem_children perm).mpr hc))).imp_left
        (List.mem_cons_of_mem _)
    · exact (ih ha).imp_left (List.mem_cons_of_mem _)

theorem origin (h : Walked F stop pending walked met) {a : α} (ha : a ∈ walked ∨ a ∈ met) :
    a ∈ pending ∨ ∃ b ∈ walked, F.Child b a := by
  induction h with
  | done => simp at ha
  | @stop s pending walked met _ _ ih =>
    by_cases hs : a = s
    · simp [hs]
    · exact (ih (ha.imp_right fun h => (List.mem_cons.mp h).resolve_left hs)).imp_left
        (List.mem_cons_of_mem _)
  | @enter s children pending walked met _ perm _ ih =>
    by_cases hs : a = s
    · simp [hs]
    · rcases ih (ha.imp_left fun h => (List.mem_cons.mp h).resolve_left hs) with hp | ⟨b, hb, hc⟩
      · rcases List.mem_append.mp hp with hc | hp
        · exact .inr ⟨s, by simp, (mem_children perm).mp hc⟩
        · exact .inl (List.mem_cons_of_mem _ hp)
      · exact .inr ⟨b, List.mem_cons_of_mem _ hb, hc⟩

theorem from_pending (h : Walked F stop pending walked met) {a : α} (ha : a ∈ walked ∨ a ∈ met) :
    ∃ p ∈ pending, F.Below p a := by
  induction h with
  | done => simp at ha
  | @stop s pending walked met _ _ ih =>
    by_cases hs : a = s
    · exact ⟨s, by simp, hs ▸ .refl⟩
    · obtain ⟨p, hp, hbelow⟩ := ih (ha.imp_right fun h => (List.mem_cons.mp h).resolve_left hs)
      exact ⟨p, List.mem_cons_of_mem _ hp, hbelow⟩
  | @enter s children pending walked met _ perm _ ih =>
    by_cases hs : a = s
    · exact ⟨s, by simp, hs ▸ .refl⟩
    · obtain ⟨p, hp, hbelow⟩ := ih (ha.imp_left fun h => (List.mem_cons.mp h).resolve_left hs)
      rcases List.mem_append.mp hp with hc | hp
      · exact ⟨s, by simp, .head ((mem_children perm).mp hc) hbelow⟩
      · exact ⟨p, List.mem_cons_of_mem _ hp, hbelow⟩

theorem walked_enters (h : Walked F stop pending walked met) {a : α} (ha : a ∈ walked) :
    ¬stop a := by
  induction h with
  | done => cases ha
  | stop _ _ ih => exact ih ha
  | enter hs _ _ ih =>
    rcases List.mem_cons.mp ha with rfl | ha
    · exact hs
    · exact ih ha

theorem met_stops (h : Walked F stop pending walked met) {a : α} (ha : a ∈ met) : stop a := by
  induction h with
  | done => cases ha
  | stop hs _ ih =>
    rcases List.mem_cons.mp ha with rfl | ha
    · exact hs
    · exact ih ha
  | enter _ _ _ ih => exact ih ha

theorem append {pending' walked' met' : List α} (h : Walked F stop pending walked met)
    (h' : Walked F stop pending' walked' met') :
    Walked F stop (pending ++ pending') (walked ++ walked') (met ++ met') := by
  induction h with
  | done => exact h'
  | stop hs _ ih => exact .stop hs ih
  | enter hs perm _ ih =>
    rw [List.append_assoc] at ih
    exact .enter hs perm ih

/-- A walk that stops nowhere collects as many nodes as the cached weights say. -/
theorem length_eq (h : Walked F stop pending walked met) (w : Weighed F) (free : ∀ a, ¬stop a)
    (mounted : ∀ a ∈ walked, F.Mounted a) : walked.length = (pending.map F.weight).sum := by
  induction h with
  | done => rfl
  | stop hs _ _ => exact absurd hs (free _)
  | @enter a children pending walked met _ perm _ ih =>
    have hsum : (children.map F.weight).sum = F.total (F.kids a) := by
      rw [(perm.map F.weight).sum_eq, List.map_map]
      rfl
    rw [List.length_cons, ih fun b hb => mounted b (List.mem_cons_of_mem _ hb), List.map_append,
      List.sum_append, hsum, List.map_cons, List.sum_cons, w a (mounted a (by simp))]
    omega

end Walked

end Collecting

end StackWalks
