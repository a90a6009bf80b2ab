import RocGui.FragmentRules
import Mathlib.Algebra.Order.BigOperators.Group.Finset
import Mathlib.Logic.Relation

/-! Which fragments are accepted: exactly the trees whose nodes keep the rules of their
kinds. The walk ends on every input. -/
namespace FragmentAcceptance

open FiniteMaps Methods GraphState FragmentValidation GraphPatches KeyedStaging FragmentTrees
  FragmentOwners FragmentRules

variable {K : Type}

section Answers

variable {ε α β : Type}

/-- A reading that returns or refuses: it neither panics nor runs on. -/
def Answers (r : Except (Failure ε) α) : Prop := (∃ a, r = .ok a) ∨ ∃ e, r = .error (.error e)

theorem answers_bind {r : Except (Failure ε) α} {f : α → Except (Failure ε) β} (hr : Answers r)
    (hf : ∀ a, r = .ok a → Answers (f a)) : Answers (r >>= f) := by
  rcases hr with ⟨a, rfl⟩ | ⟨e, rfl⟩
  · exact hf a rfl
  · exact .inr ⟨e, rfl⟩

theorem answers_guard {p : Prop} [Decidable p] {e : ε} {f : PUnit → Except (Failure ε) β}
    (hf : ¬p → Answers (f ⟨⟩)) : Answers (if p then throw (.error e) >>= f else f ⟨⟩) := by
  by_cases hp : p
  · rw [if_pos hp]
    exact .inr ⟨e, rfl⟩
  · rw [if_neg hp]
    exact hf hp

theorem answers_refuse (r : Except FragmentError α) : Answers (refuseFragment r) := by
  cases r with
  | ok a => exact .inl ⟨a, rfl⟩
  | error e => exact .inr ⟨e, rfl⟩

end Answers

section Ending

variable {fresh : FiniteMap ℕ (Node K)} {retained all : Finset ℕ} {t t' : Traversal} {id : ℕ}
  {exiting : Bool} {owner : Option ℕ}

/-- The turns that are left: one for every entry of the stack, and what the nodes that
are still to enter will put there. -/
def weight (fresh : FiniteMap ℕ (Node K)) (all : Finset ℕ) (t : Traversal) : ℕ :=
  t.pending.length + ∑ id ∈ all \ t.reached, ((below fresh id).length + 1)

theorem visit_answers (listed : exiting = false → id ∈ retained ∨ (fresh.get id).isSome) :
    Answers (visit fresh retained t id exiting owner) := by
  unfold visit
  by_cases hexit : exiting = true
  · exact .inl ⟨_, if_pos hexit⟩
  rw [if_neg hexit]
  by_cases hreached : id ∈ t.reached
  · exact .inr ⟨_, if_pos hreached⟩
  rw [if_neg hreached]
  dsimp only
  by_cases hretained : id ∈ retained
  · exact .inl ⟨_, if_pos hretained⟩
  rw [if_neg hretained]
  obtain ⟨n, hn⟩ := Option.isSome_iff_exists.mp
    ((listed (Bool.eq_false_iff.mpr hexit)).resolve_left hretained)
  rw [hn]
  dsimp only
  split
  · exact .inl ⟨_, rfl⟩
  · split
    · exact .inr ⟨_, rfl⟩
    · exact .inl ⟨_, rfl⟩
  · exact .inl ⟨_, rfl⟩

theorem visit_weight {pending : List (ℕ × Bool × Option ℕ)}
    (hp : t.pending = (id, exiting, owner) :: pending)
    (known : ∀ id, (fresh.get id).isSome → id ∈ all)
    (h : visit fresh retained { t with pending } id exiting owner = .ok t') :
    weight fresh all t' + 1 ≤ weight fresh all t := by
  rw [weight, weight, hp, List.length_cons]
  rcases visit_cases h with ⟨-, hpending, hreached, -⟩ |
      ⟨-, hfree, hreached, -, ⟨-, hpending⟩ | ⟨n, o, -, hn, hpending⟩⟩
  · rw [hpending, hreached]
    dsimp only
    omega
  · rw [hpending, hreached]
    have hsub : all \ insert id t.reached ⊆ all \ t.reached :=
      Finset.sdiff_subset_sdiff (Finset.Subset.refl _) (Finset.subset_insert _ _)
    have := Finset.sum_le_sum_of_subset (f := fun id => (below fresh id).length + 1) hsub
    dsimp only at this ⊢
    omega
  · have hmem : id ∈ all \ t.reached :=
      Finset.mem_sdiff.mpr ⟨known id (by simp [hn]), hfree⟩
    have hbelow : below fresh id = n.children := by simp [below, hn]
    have hsum := Finset.add_sum_erase _ (fun id => (below fresh id).length + 1) hmem
    rw [hpending, hreached, Finset.sdiff_insert]
    rw [hbelow] at hsum
    simp only [List.length_append, List.length_map, List.length_cons] at hsum ⊢
    omega

theorem traverse_answers {fuel : ℕ} (known : ∀ id, (fresh.get id).isSome → id ∈ all)
    (closed : ∀ p, ∀ c ∈ below fresh p, c ∈ retained ∨ (fresh.get c).isSome)
    (listed : ∀ e ∈ t.pending, e.2.1 = false → e.1 ∈ retained ∨ (fresh.get e.1).isSome)
    (enough : weight fresh all t ≤ fuel) :
    Answers (traverse fresh retained fuel t) := by
  induction fuel generalizing t with
  | zero =>
    have hp : t.pending = [] := by
      rw [weight] at enough
      exact List.length_eq_zero_iff.mp (by omega)
    rw [FragmentValidation.traverse, if_pos hp]
    exact .inl ⟨t, rfl⟩
  | succ fuel ih =>
    cases hp : t.pending with
    | nil =>
      simp only [FragmentValidation.traverse, hp]
      exact .inl ⟨t, rfl⟩
    | cons e pending =>
      obtain ⟨id, exiting, owner⟩ := e
      simp only [FragmentValidation.traverse, hp]
      have rest : ∀ e ∈ pending, e.2.1 = false → e.1 ∈ retained ∨ (fresh.get e.1).isSome :=
        fun e he => listed e (hp ▸ List.mem_cons_of_mem _ he)
      have here : Answers (visit fresh retained { t with pending } id exiting owner) :=
        visit_answers (listed (id, exiting, owner) (hp ▸ List.mem_cons_self))
      rcases here with ⟨t', ht'⟩ | ⟨e, he⟩
      · rw [ht']
        refine ih (fun e he hentry => ?_) ?_
        · rcases visit_cases ht' with ⟨-, hpending, -⟩ |
              ⟨-, -, -, -, ⟨-, hpending⟩ | ⟨n, o, -, hn, hpending⟩⟩
          · rw [hpending] at he
            exact rest e he hentry
          · rw [hpending] at he
            exact rest e he hentry
          · rw [hpending, List.mem_append, List.mem_cons] at he
            rcases he with he | rfl | he
            · obtain ⟨c, hc, rfl⟩ := List.mem_map.mp he
              exact closed id c (by simpa [below, hn] using hc)
            · cases hentry
            · exact rest e he hentry
        · have := visit_weight hp known ht'
          omega
      · rw [he]
        exact .inr ⟨e, rfl⟩

end Ending

section Sweeping

variable {fresh : FiniteMap ℕ (Node K)} {retained : Finset ℕ} {root : ℕ} {outer : Option ℕ}
  {t t' : Traversal}

def entering (t : Traversal) : List ℕ := (t.pending.filter fun e => !e.2.1).map Prod.fst

/-- What the loops before the walk have made sure of: every node is named as a child once
at most, and the root never. -/
structure Named (fresh : FiniteMap ℕ (Node K)) (retained : Finset ℕ) (root : ℕ) : Prop where
  sole : ∀ {p q x}, x ∈ below fresh p → x ∈ below fresh q → p = q
  single : ∀ p, (below fresh p).Nodup
  free : ∀ p, root ∉ below fresh p
  leaf : ∀ id ∈ retained, fresh.get id = none

theorem below_fresh {p : ℕ} {n : Node K} (h : fresh.get p = some n) : below fresh p = n.children := by
  simp [below, h]

theorem below_inside {p c : ℕ} (h : c ∈ below fresh p) :
    ∃ n, fresh.get p = some n ∧ c ∈ n.children := by
  cases hp : fresh.get p with
  | none => simp [below, hp] at h
  | some n => exact ⟨n, rfl, by rwa [below_fresh hp] at h⟩

theorem owned_in_unique (w : Named fresh retained root) {x : ℕ} {o o' : Option ℕ}
    (h : OwnedIn fresh root outer x o) (h' : OwnedIn fresh root outer x o') : o = o' := by
  have here {p c : ℕ} {n : Node K} (hp : fresh.get p = some n) (hc : c ∈ n.children) :
      c ∈ below fresh p := by rwa [below_fresh hp]
  have same {p q c : ℕ} {n m : Node K} (hp : fresh.get p = some n) (hc : c ∈ n.children)
      (hq : fresh.get q = some m) (hc' : c ∈ m.children) : p = q ∧ n = m := by
    obtain rfl := w.sole (here hp hc) (here hq hc')
    exact ⟨rfl, Option.some.inj (hp.symm.trans hq)⟩
  induction h generalizing o' with
  | root =>
    cases h' with
    | root => rfl
    | inside hp _ hc => exact absurd (here hp hc) (w.free _)
    | within hp _ hc _ => exact absurd (here hp hc) (w.free _)
  | inside hp hk hc =>
    cases h' with
    | root => exact absurd (here hp hc) (w.free _)
    | inside hq hk' hc' =>
      obtain ⟨rfl, rfl⟩ := same hp hc hq hc'
      rw [hk] at hk'
      cases hk'
      rfl
    | within hq hk' hc' _ =>
      obtain ⟨rfl, rfl⟩ := same hp hc hq hc'
      exact absurd hk (hk' _)
  | within hp hk hc _ ih =>
    cases h' with
    | root => exact absurd (here hp hc) (w.free _)
    | inside hq hk' hc' =>
      obtain ⟨rfl, rfl⟩ := same hp hc hq hc'
      exact absurd hk' (hk _)
    | within hq hk' hc' ho =>
      obtain ⟨rfl, rfl⟩ := same hp hc hq hc'
      exact ih ho

/-- The walk has entered a part of the tree that hangs together, and stands on all of its
edges. -/
structure Sweep (fresh : FiniteMap ℕ (Node K)) (root : ℕ) (outer : Option ℕ) (t : Traversal) :
    Prop where
  nodup : (entering t).Nodup
  apart : ∀ x ∈ entering t, x ∉ t.reached
  sourced : ∀ x, x ∈ t.reached ∨ x ∈ entering t → x = root ∨ ∃ p ∈ t.reached, x ∈ below fresh p
  reach : ∀ x, x ∈ t.reached ∨ x ∈ entering t →
    Relation.ReflTransGen (fun p c => c ∈ below fresh p) root x
  closed : ∀ p ∈ t.reached, ∀ c ∈ below fresh p, c ∈ t.reached ∨ c ∈ entering t
  rooted : root ∈ t.reached ∨ root ∈ entering t
  labels : ∀ {o l}, (o, l) ∈ t.inputLabels →
    ∃ x ∈ t.reached, InputAt fresh x l ∧ OwnedIn fresh root outer x o
  noted : ∀ {x l}, x ∈ t.reached → InputAt fresh x l → ∃ o, t.inputOwners.get x = some o

theorem sweep_start (fresh : FiniteMap ℕ (Node K)) (root : ℕ) (outer : Option ℕ) (visits : ℕ) :
    Sweep fresh root outer ⟨[(root, false, outer)], ∅, ∅, ∅, [], visits⟩ := by
  have only {x : ℕ} : x ∈ entering ⟨[(root, false, outer)], ∅, ∅, ∅, [], visits⟩ ↔ x = root := by
    simp [entering]
  refine ⟨by simp [entering], by simp, fun x hx => ?_, fun x hx => ?_, by simp, ?_, by simp, by simp⟩
  · exact .inl (only.mp (hx.resolve_left (Finset.notMem_empty x)))
  · rw [only.mp (hx.resolve_left (Finset.notMem_empty x))]
  · exact .inr (only.mpr rfl)

theorem visit_notes {id : ℕ} {exiting : Bool} {owner : Option ℕ}
    (leaf : ∀ id ∈ retained, fresh.get id = none)
    (h : visit fresh retained t id exiting owner = .ok t') :
    (t'.inputLabels = t.inputLabels ∧ t'.inputOwners = t.inputOwners ∧
      (exiting = false → ∀ l, ¬InputAt fresh id l)) ∨
    ∃ l, exiting = false ∧ InputAt fresh id l ∧ t'.inputLabels = insert (owner, l) t.inputLabels ∧
      t'.inputOwners = t.inputOwners.set id owner := by
  unfold visit at h
  split at h
  · rename_i hexit
    cases h
    exact .inl ⟨rfl, rfl, by simp [hexit]⟩
  rename_i hexit
  split at h
  · cases h
  dsimp only at h
  split at h
  · rename_i hretained
    cases h
    refine .inl ⟨rfl, rfl, fun _ l ⟨n, enabled, hn, hk⟩ => ?_⟩
    rw [leaf id hretained] at hn
    cases hn
  cases hnode : fresh.get id with
  | none => simp [hnode] at h
  | some n =>
    have other (hk : ∀ l enabled, n.kind ≠ .textInput l enabled) (l : String) :
        ¬InputAt fresh id l := by
      rintro ⟨m, enabled, hm, hkm⟩
      obtain rfl := Option.some.inj (hnode.symm.trans hm)
      exact hk l enabled hkm
    simp only [hnode] at h
    split at h
    · rename_i i hk
      cases h
      exact .inl ⟨rfl, rfl, fun _ => other (by simp [hk])⟩
    · rename_i label enabled hk
      split at h
      · cases h
      cases h
      exact .inr ⟨label, by simpa using hexit, ⟨n, enabled, hnode, hk⟩, rfl, rfl⟩
    · rename_i hk
      cases h
      exact .inl ⟨rfl, rfl, fun _ => other hk⟩

theorem entering_entry (id : ℕ) (owner : Option ℕ) (pending : List (ℕ × Bool × Option ℕ)) :
    (((id, false, owner) :: pending).filter fun e => !e.2.1).map Prod.fst =
      id :: (pending.filter fun e => !e.2.1).map Prod.fst := by
  simp

theorem entering_entries (cs : List ℕ) (id : ℕ) (owner : Option ℕ)
    (pending : List (ℕ × Bool × Option ℕ)) :
    ((cs.map (fun c => (c, false, owner)) ++ (id, true, owner) :: pending).filter
      fun e => !e.2.1).map Prod.fst = cs ++ (pending.filter fun e => !e.2.1).map Prod.fst := by
  induction cs with
  | nil => simp
  | cons c cs ih => simpa using ih

/-- Entering a node: its children are still to enter, and nothing else has named them. -/
theorem sweep_enter {id : ℕ} {later : List ℕ} (w : Named fresh retained root)
    (s : Sweep fresh root outer t) (hfree : id ∉ t.reached) (hbefore : entering t = id :: later)
    (hafter : entering t' = below fresh id ++ later) (hreached : t'.reached = insert id t.reached)
    (labels : ∀ {o l}, (o, l) ∈ t'.inputLabels →
      ∃ x ∈ t'.reached, InputAt fresh x l ∧ OwnedIn fresh root outer x o)
    (noted : ∀ {x l}, x ∈ t'.reached → InputAt fresh x l → ∃ o, t'.inputOwners.get x = some o) :
    Sweep fresh root outer t' := by
  have hmem {x : ℕ} : x ∈ entering t ↔ x = id ∨ x ∈ later := by rw [hbefore, List.mem_cons]
  have hmem' {x : ℕ} : x ∈ entering t' ↔ x ∈ below fresh id ∨ x ∈ later := by
    rw [hafter, List.mem_append]
  have hin {x : ℕ} : x ∈ t'.reached ↔ x = id ∨ x ∈ t.reached := by
    rw [hreached, Finset.mem_insert]
  have hnodup := s.nodup
  rw [hbefore, List.nodup_cons] at hnodup
  -- whatever was met before has another parent, or is the root
  have new {c : ℕ} (hc : c ∈ below fresh id) : c ∉ t.reached ∧ c ∉ entering t := by
    rw [← not_or]
    intro hmet
    rcases s.sourced c hmet with rfl | ⟨p, hp, hcp⟩
    · exact w.free id hc
    · obtain rfl := w.sole hc hcp
      exact hfree hp
  refine ⟨?_, fun x hx => ?_, fun x hx => ?_, fun x hx => ?_, fun p hp c hc => ?_, ?_, labels, noted⟩
  · rw [hafter, List.nodup_append]
    refine ⟨w.single id, hnodup.2, ?_⟩
    rintro c hc d hd rfl
    exact (new hc).2 (hmem.mpr (.inr hd))
  · rw [hin, not_or]
    rcases hmem'.mp hx with hx | hx
    · refine ⟨?_, (new hx).1⟩
      rintro rfl
      exact (new hx).2 (hmem.mpr (.inl rfl))
    · refine ⟨?_, s.apart x (hmem.mpr (.inr hx))⟩
      rintro rfl
      exact hnodup.1 hx
  · by_cases hbelow : x ∈ below fresh id
    · exact .inr ⟨id, hin.mpr (.inl rfl), hbelow⟩
    have hmet : x ∈ t.reached ∨ x ∈ entering t := by
      rcases hx with hx | hx
      · rcases hin.mp hx with rfl | hx
        · exact .inr (hmem.mpr (.inl rfl))
        · exact .inl hx
      · exact .inr (hmem.mpr (.inr ((hmem'.mp hx).resolve_left hbelow)))
    rcases s.sourced x hmet with heq | ⟨p, hp, hxp⟩
    · exact .inl heq
    · exact .inr ⟨p, hin.mpr (.inr hp), hxp⟩
  · have here := s.reach id (.inr (hmem.mpr (.inl rfl)))
    rcases hx with hx | hx
    · rcases hin.mp hx with rfl | hx
      · exact here
      · exact s.reach x (.inl hx)
    · rcases hmem'.mp hx with hx | hx
      · exact here.tail hx
      · exact s.reach x (.inr (hmem.mpr (.inr hx)))
  · rcases hin.mp hp with rfl | hp
    · exact .inr (hmem'.mpr (.inl hc))
    · rcases s.closed p hp c hc with hc | hc
      · exact .inl (hin.mpr (.inr hc))
      · rcases hmem.mp hc with rfl | hc
        · exact .inl (hin.mpr (.inl rfl))
        · exact .inr (hmem'.mpr (.inr hc))
  · rcases s.rooted with hr | hr
    · exact .inl (hin.mpr (.inr hr))
    · rcases hmem.mp hr with hr | hr
      · exact .inl (hin.mpr (.inl hr))
      · exact .inr (hmem'.mpr (.inr hr))

theorem visit_sweep {id : ℕ} {exiting : Bool} {owner : Option ℕ}
    {pending : List (ℕ × Bool × Option ℕ)} (w : Named fresh retained root)
    (hp : t.pending = (id, exiting, owner) :: pending) (s : Sweep fresh root outer t)
    (owning : Owning fresh root outer t)
    (h : visit fresh retained { t with pending } id exiting owner = .ok t') :
    Sweep fresh root outer t' := by
  have hnotes := visit_notes w.leaf h
  dsimp only at hnotes
  by_cases hexit : exiting = true
  · subst hexit
    rcases visit_cases h with ⟨-, hpending, hreached, -⟩ | ⟨hexit, -⟩
    · obtain ⟨hlabels, howners, -⟩ : t'.inputLabels = t.inputLabels ∧
          t'.inputOwners = t.inputOwners ∧ _ := hnotes.resolve_right (by simp)
      have same : entering t' = entering t := by
        rw [entering, entering, hpending, hp]
        simp
      dsimp only at hreached
      exact ⟨same ▸ s.nodup, by rw [same, hreached]; exact s.apart,
        by rw [same, hreached]; exact s.sourced, by rw [same, hreached]; exact s.reach,
        by rw [same, hreached]; exact s.closed, by rw [same, hreached]; exact s.rooted,
        by rw [hlabels, hreached]; exact s.labels, by rw [howners, hreached]; exact s.noted⟩
    · cases hexit
  obtain rfl : exiting = false := Bool.eq_false_iff.mpr hexit
  rcases visit_cases h with ⟨hexit, -⟩ | ⟨-, hfree, hreached, -, hpending⟩
  · cases hexit
  dsimp only at hfree hreached
  have hbefore : entering t = id :: (pending.filter fun e => !e.2.1).map Prod.fst := by
    rw [entering, hp, entering_entry]
  have hafter : entering t' =
      below fresh id ++ (pending.filter fun e => !e.2.1).map Prod.fst := by
    rcases hpending with ⟨hretained, hpending⟩ | ⟨n, o, -, hn, hpending⟩
    · rw [entering, hpending, below, w.leaf id hretained]
      rfl
    · rw [entering, hpending, entering_entries, below_fresh hn]
  have hin {x : ℕ} : x ∈ t'.reached ↔ x = id ∨ x ∈ t.reached := by
    rw [hreached, Finset.mem_insert]
  refine sweep_enter w s hfree hbefore hafter hreached (fun {o l} hl => ?_) fun {x l} hx hl => ?_
  · have before (hl : (o, l) ∈ t.inputLabels) :
        ∃ x ∈ t'.reached, InputAt fresh x l ∧ OwnedIn fresh root outer x o := by
      obtain ⟨x, hx, here⟩ := s.labels hl
      exact ⟨x, hin.mpr (.inr hx), here⟩
    rcases hnotes with ⟨hlabels, -⟩ | ⟨label, -, hinput, hlabels, -⟩
    · exact before (hlabels ▸ hl)
    · rw [hlabels, Finset.mem_insert, Prod.mk.injEq] at hl
      rcases hl with ⟨rfl, rfl⟩ | hl
      · refine ⟨id, hin.mpr (.inl rfl), hinput, owning.pending ?_⟩
        rw [hp]
        exact List.mem_cons_self
      · exact before hl
  · rcases hnotes with ⟨-, howners, hnone⟩ | ⟨label, -, -, -, howners⟩
    · rw [howners]
      rcases hin.mp hx with rfl | hx
      · exact absurd hl (hnone rfl l)
      · exact s.noted hx hl
    · rw [howners, FiniteMap.get_set]
      by_cases heq : x = id
      · exact ⟨owner, if_pos heq⟩
      · rw [if_neg heq]
        exact s.noted ((hin.mp hx).resolve_left heq) hl

theorem traverse_sweep {fuel : ℕ} (w : Named fresh retained root) (s : Sweep fresh root outer t)
    (owning : Owning fresh root outer t) (h : traverse fresh retained fuel t = .ok t') :
    Sweep fresh root outer t' := by
  induction fuel generalizing t with
  | zero =>
    simp only [FragmentValidation.traverse] at h
    split at h
    · cases h
      exact s
    · cases h
  | succ fuel ih =>
    cases hp : t.pending with
    | nil =>
      simp only [FragmentValidation.traverse, hp] at h
      cases h
      exact s
    | cons e pending =>
      obtain ⟨id, exiting, owner⟩ := e
      simp only [FragmentValidation.traverse, hp, except_bind_ok] at h
      obtain ⟨next, hvisit, hrest⟩ := h
      exact ih (visit_sweep w hp s owning hvisit) (visit_owning hp owning hvisit) hrest

/-- Inputs of one owner have labels of their own. -/
def LabelsApart (fresh : FiniteMap ℕ (Node K)) (root : ℕ) (outer : Option ℕ) : Prop :=
  ∀ {x y o l}, InputAt fresh x l → InputAt fresh y l → OwnedIn fresh root outer x o →
    OwnedIn fresh root outer y o → x = y

theorem visit_accepts {id : ℕ} {exiting : Bool} {owner : Option ℕ} {e : FragmentError}
    {pending : List (ℕ × Bool × Option ℕ)} (apart : LabelsApart fresh root outer)
    (hp : t.pending = (id, exiting, owner) :: pending) (s : Sweep fresh root outer t)
    (owning : Owning fresh root outer t) :
    visit fresh retained { t with pending } id exiting owner ≠ .error (.error e) := by
  intro h
  unfold visit at h
  split at h
  · cases h
  rename_i hexit
  obtain rfl : exiting = false := Bool.eq_false_iff.mpr hexit
  have hentry : id ∉ t.reached := s.apart id (by
    rw [entering, hp, entering_entry]
    exact List.mem_cons_self)
  rw [if_neg hentry] at h
  dsimp only at h
  split at h
  · cases h
  cases hnode : fresh.get id with
  | none => simp [hnode] at h
  | some n =>
    simp only [hnode] at h
    split at h
    · cases h
    · rename_i label enabled hk
      split at h
      · rename_i hlabel
        obtain ⟨x, hx, hinput, howned⟩ := s.labels hlabel
        have here : OwnedIn fresh root outer id owner := owning.pending (by
          rw [hp]
          exact List.mem_cons_self)
        obtain rfl := apart hinput ⟨n, enabled, hnode, hk⟩ howned here
        exact hentry hx
      · cases h
    · cases h

theorem traverse_accepts {fuel : ℕ} {e : FragmentError} (w : Named fresh retained root)
    (apart : LabelsApart fresh root outer) (s : Sweep fresh root outer t)
    (owning : Owning fresh root outer t) :
    traverse fresh retained fuel t ≠ .error (.error e) := by
  intro h
  induction fuel generalizing t with
  | zero =>
    simp only [FragmentValidation.traverse] at h
    split at h <;> cases h
  | succ fuel ih =>
    cases hp : t.pending with
    | nil =>
      simp only [FragmentValidation.traverse, hp] at h
      cases h
    | cons e pending =>
      obtain ⟨id, exiting, owner⟩ := e
      simp only [FragmentValidation.traverse, hp] at h
      cases hvisit : visit fresh retained { t with pending } id exiting owner with
      | ok next =>
        rw [hvisit] at h
        exact ih (visit_sweep w hp s owning hvisit) (visit_owning hp owning hvisit) h
      | error failure =>
        rw [hvisit] at h
        obtain rfl : failure = _ := Except.error.inj h
        exact visit_accepts apart hp s owning hvisit

end Sweeping

section Trees

variable {root : ℕ} {nodes : List (Node K)} {retained : Finset ℕ} {owner : Option ℕ}
  {mounted : ℕ → Option (Node K)} {fresh fresh' : FiniteMap ℕ (Node K)}

def Parent (nodes : List (Node K)) (p c : ℕ) : Prop := ∃ n ∈ nodes, n.id = p ∧ c ∈ n.children

/-- The staged nodes and the retained roots, as leaves, form one tree. -/
structure OneTree (root : ℕ) (nodes : List (Node K)) (retained : Finset ℕ) : Prop where
  distinct : (ids nodes).Nodup
  apart : ∀ id ∈ ids nodes, id ∉ retained
  root_listed : root ∈ ids nodes ∨ root ∈ retained
  root_free : ∀ p, ¬Parent nodes p root
  listed : ∀ {p c}, Parent nodes p c → c ∈ ids nodes ∨ c ∈ retained
  owned : (childIds nodes).Nodup
  reached : ∀ id, id ∈ ids nodes ∨ id ∈ retained → Relation.ReflTransGen (Parent nodes) root id
  acyclic : ∀ id, ¬Relation.TransGen (Parent nodes) id id

def staged (nodes : List (Node K)) : FiniteMap ℕ (Node K) :=
  nodes.foldl (fun fresh node => fresh.set node.id node) ∅

/-- Which fragments are accepted. -/
structure Admissible (root : ℕ) (nodes : List (Node K)) (retained : Finset ℕ) (owner : Option ℕ)
    (mounted : ℕ → Option (Node K)) : Prop where
  tree : OneTree root nodes retained
  counts : ∀ n ∈ nodes, ChildCount n
  data : ∀ n ∈ nodes, DataRule (fun id => ((staged nodes).get id).or (mounted id)) n
  root_reserved : root ≠ 0
  reserved : ∀ n ∈ nodes, n.id ≠ 0
  sized : nodes.length + retained.card ≤ maxStagedNodes
  labelled : ∀ n ∈ nodes, ¬Unlabelled n
  dialogs : nodes.countP isDialog ≤ 1
  instances : (instancesOf nodes).Nodup
  labels : LabelsApart (staged nodes) root owner

theorem parent_child {p c : ℕ} (h : Parent nodes p c) : c ∈ childIds nodes := by
  obtain ⟨n, hn, -, hc⟩ := h
  exact mem_childIds.mpr ⟨n, hn, hc⟩

theorem child_parent {c : ℕ} (h : c ∈ childIds nodes) : ∃ p, Parent nodes p c := by
  obtain ⟨n, hn, hc⟩ := mem_childIds.mp h
  exact ⟨n.id, n, hn, rfl, hc⟩

theorem parent_sole (owned : (childIds nodes).Nodup) {p q c : ℕ} (hp : Parent nodes p c)
    (hq : Parent nodes q c) : p = q := by
  obtain ⟨n, hn, rfl, hc⟩ := hp
  obtain ⟨m, hm, rfl, hc'⟩ := hq
  by_contra hne
  have hpair := (List.nodup_flatMap.mp owned).2
  have : Std.Symm (Function.onFun List.Disjoint fun n : Node K => n.children) :=
    ⟨fun a b h => List.Disjoint.symm h⟩
  exact hpair.forall hn hm (fun heq => hne (congrArg _ heq)) hc hc'

theorem one_parent (tree : OneTree root nodes retained) {id : ℕ} (hne : id ≠ root)
    (hid : id ∈ ids nodes ∨ id ∈ retained) : ∃! p, Parent nodes p id := by
  rcases (tree.reached id hid).cases_tail with heq | ⟨p, -, hp⟩
  · exact absurd heq hne
  · exact ⟨p, hp, fun q hq => parent_sole tree.owned hq hp⟩

theorem reached_acyclic (owned : (childIds nodes).Nodup) (free : ∀ p, ¬Parent nodes p root)
    {id : ℕ} (h : Relation.ReflTransGen (Parent nodes) root id) :
    ¬Relation.TransGen (Parent nodes) id id := by
  induction h with
  | refl =>
    intro hcycle
    obtain ⟨p, -, hp⟩ := Relation.TransGen.tail'_iff.mp hcycle
    exact free p hp
  | @tail p c _ hpc ih =>
    intro hcycle
    obtain ⟨q, hcq, hqc⟩ := Relation.TransGen.tail'_iff.mp hcycle
    obtain rfl := parent_sole owned hpc hqc
    exact ih (Relation.TransGen.head' hpc hcq)

theorem index_staged (h : indexNodes retained fresh nodes = .ok fresh') :
    fresh' = nodes.foldl (fun fresh node => fresh.set node.id node) fresh := by
  induction nodes generalizing fresh with
  | nil =>
    cases h
    rfl
  | cons node rest ih =>
    simp only [indexNodes] at h
    split at h
    · cases h
    split at h
    · cases h
    exact ih h

/-- The index of nodes that are staged once. -/
structure Indexed (nodes : List (Node K)) (retained : Finset ℕ) (fresh : FiniteMap ℕ (Node K)) :
    Prop where
  fresh : ∀ {id n}, fresh.get id = some n ↔ n ∈ nodes ∧ n.id = id
  apart : ∀ id ∈ ids nodes, id ∉ retained

theorem indexed (h : indexNodes retained ∅ nodes = .ok fresh) : Indexed nodes retained fresh := by
  obtain ⟨-, free, lookup⟩ := index_nodes h
  refine ⟨fun {id n} => ?_, fun id hid => ?_⟩
  · rw [lookup]
    simp
  · obtain ⟨n, hn, rfl⟩ := List.mem_map.mp hid
    exact (free n hn).2

theorem indexed_some (x : Indexed nodes retained fresh) {id : ℕ} :
    (fresh.get id).isSome ↔ id ∈ ids nodes := by
  rw [Option.isSome_iff_exists, ids, List.mem_map]
  exact exists_congr fun n => x.fresh

theorem indexed_listed (x : Indexed nodes retained fresh) {id : ℕ} :
    ((fresh.get id).isSome || decide (id ∈ retained)) = true ↔ id ∈ ids nodes ∨ id ∈ retained := by
  rw [Bool.or_eq_true, indexed_some x, decide_eq_true_eq]

theorem indexed_below (x : Indexed nodes retained fresh) {p c : ℕ} :
    c ∈ below fresh p ↔ Parent nodes p c := by
  constructor
  · intro h
    obtain ⟨n, hn, hc⟩ := below_inside h
    obtain ⟨hmem, heq⟩ := x.fresh.mp hn
    exact ⟨n, hmem, heq, hc⟩
  · rintro ⟨n, hn, heq, hc⟩
    rw [below_fresh (x.fresh.mpr ⟨hn, heq⟩)]
    exact hc

theorem indexed_named (x : Indexed nodes retained fresh) (owned : (childIds nodes).Nodup)
    (free : root ∉ childIds nodes) : Named fresh retained root where
  sole hp hq := parent_sole owned ((indexed_below x).mp hp) ((indexed_below x).mp hq)
  single p := by
    cases hp : fresh.get p with
    | none => simp [below, hp]
    | some n =>
      rw [below_fresh hp]
      exact (List.nodup_flatMap.mp owned).1 n (x.fresh.mp hp).1
  free p h := free (parent_child ((indexed_below x).mp h))
  leaf id hid := by
    rw [← Option.not_isSome_iff_eq_none, indexed_some x]
    exact fun hmem => x.apart id hmem hid

/-- The walk has turns enough for every entry it can make. -/
theorem weight_start (x : Indexed nodes retained fresh) (distinct : (ids nodes).Nodup)
    (owned : (childIds nodes).Nodup) (listed : ∀ c ∈ childIds nodes, c ∈ ids nodes ∨ c ∈ retained)
    (visits : ℕ) :
    weight fresh (ids nodes).toFinset ⟨[(root, false, owner)], ∅, ∅, ∅, [], visits⟩ ≤
      2 * (nodes.length + retained.card) + 1 := by
  have hlength : (childIds nodes).length ≤ nodes.length + retained.card := by
    rw [← List.toFinset_card_of_nodup owned]
    have hsub : (childIds nodes).toFinset ⊆ (ids nodes).toFinset ∪ retained := by
      intro c hc
      rw [Finset.mem_union, List.mem_toFinset]
      exact listed c (List.mem_toFinset.mp hc)
    refine (Finset.card_le_card hsub).trans ((Finset.card_union_le _ _).trans ?_)
    refine Nat.add_le_add_right ((List.toFinset_card_le _).trans ?_) _
    simp [ids]
  have hsum : ((ids nodes).map fun id => (below fresh id).length + 1).sum =
      nodes.length + (childIds nodes).length := by
    have hbelow : ∀ n ∈ nodes, below fresh n.id = n.children := fun n hn =>
      below_fresh (x.fresh.mpr ⟨hn, rfl⟩)
    clear hlength listed owned distinct x
    induction nodes with
    | nil => rfl
    | cons n rest ih =>
      have hrest := ih fun m hm => hbelow m (List.mem_cons_of_mem _ hm)
      have hn := hbelow n List.mem_cons_self
      simp only [ids, childIds, List.map_cons, List.sum_cons, List.flatMap_cons,
        List.length_append, List.length_cons, hn] at hrest ⊢
      omega
  rw [weight, Finset.sdiff_empty, List.sum_toFinset _ distinct, hsum]
  simp only [List.length_cons, List.length_nil]
  omega

end Trees

section Accepted

variable {root : ℕ} {nodes : List (Node K)} {retained : Finset ℕ} {owner : Option ℕ}
  {mounted : ℕ → Option (Node K)}

theorem owning_start (fresh : FiniteMap ℕ (Node K)) (root : ℕ) (owner : Option ℕ) (visits : ℕ) :
    Owning fresh root owner ⟨[(root, false, owner)], ∅, ∅, ∅, [], visits⟩ := by
  refine ⟨fun {x o} hx => ?_, by simp, by simp, by simp, by simp⟩
  obtain ⟨rfl, rfl⟩ : x = root ∧ o = owner := by simpa using hx
  exact .root

theorem walk_answers {fresh : FiniteMap ℕ (Node K)} (x : Indexed nodes retained fresh)
    (distinct : (ids nodes).Nodup) (owned : (childIds nodes).Nodup)
    (listed : ∀ c ∈ childIds nodes, c ∈ ids nodes ∨ c ∈ retained)
    (hroot : root ∈ ids nodes ∨ root ∈ retained) (visits : ℕ) :
    Answers (traverse fresh retained (2 * (nodes.length + retained.card) + 1)
      ⟨[(root, false, owner)], ∅, ∅, ∅, [], visits⟩) := by
  refine traverse_answers (fun id hid => List.mem_toFinset.mpr ((indexed_some x).mp hid))
    (fun p c hc => ?_) (fun e he _ => ?_) (weight_start x distinct owned listed visits)
  · rw [indexed_some x]
    exact (listed c (parent_child ((indexed_below x).mp hc))).symm
  · obtain rfl : e = (root, false, owner) := by simpa using he
    rw [indexed_some x]
    exact hroot.symm

/-- Every list of nodes is answered, also where ids are twice in it or go round. -/
theorem validate_answers (root : ℕ) (nodes : List (Node K)) (retained : Finset ℕ)
    (owner : Option ℕ) (mounted : ℕ → Option (Node K)) :
    Answers (validateFragment root nodes retained owner mounted) := by
  unfold validateFragment
  refine answers_guard fun _ => answers_guard fun _ => ?_
  refine answers_bind (answers_refuse _) fun fresh hindex => answers_guard fun hroot => ?_
  refine answers_bind (answers_refuse _) fun tally htally => answers_guard fun _ => ?_
  have x := indexed (refuse_ok hindex)
  obtain ⟨listed, owned, -⟩ := check_nodes (refuse_ok htally)
  have children : ∀ c ∈ childIds nodes, c ∈ ids nodes ∨ c ∈ retained := fun c hc =>
    (indexed_listed x).mp (listed c hc).1
  refine answers_bind (walk_answers x (index_nodes (refuse_ok hindex)).1 owned children ?_ _)
    fun t _ => answers_guard fun _ => .inl ⟨_, rfl⟩
  exact (indexed_listed x).mp (not_not.mp hroot)

theorem sweep_all {fresh : FiniteMap ℕ (Node K)} {t : Traversal} (x : Indexed nodes retained fresh)
    (s : Sweep fresh root owner t) (hp : t.pending = []) {id : ℕ}
    (h : Relation.ReflTransGen (Parent nodes) root id) : id ∈ t.reached := by
  have hdone : entering t = [] := by
    rw [entering, hp]
    rfl
  induction h with
  | refl => exact s.rooted.resolve_right (by simp [hdone])
  | @tail p c _ hpc ih =>
    exact (s.closed p ih c ((indexed_below x).mpr hpc)).resolve_right (by simp [hdone])

theorem reached_listed {fresh : FiniteMap ℕ (Node K)} {t : Traversal}
    (x : Indexed nodes retained fresh) (w : Walk fresh retained root t) :
    t.reached ⊆ (ids nodes).toFinset ∪ retained := by
  intro id hid
  rw [Finset.mem_union, List.mem_toFinset]
  rcases w.covered id hid with hr | hl
  · exact .inr hr
  · exact .inl ((indexed_some x).mp (w.entered id hl).2)

theorem admissible_accepted (h : Admissible root nodes retained owner mounted) :
    ∃ validated, validateFragment root nodes retained owner mounted = .ok validated := by
  obtain ⟨fresh, hindex⟩ : ∃ fresh, indexNodes retained ∅ nodes = .ok fresh :=
    index_nodes_ok h.tree.distinct h.reserved
      (fun n hn => h.tree.apart n.id (List.mem_map_of_mem hn)) fun n _ => FiniteMap.get_empty n.id
  have x := indexed hindex
  obtain rfl : fresh = staged nodes := index_staged hindex
  have free : root ∉ childIds nodes := fun hmem =>
    (child_parent hmem).elim fun p hp => h.tree.root_free p hp
  have children : ∀ c ∈ childIds nodes, c ∈ ids nodes ∨ c ∈ retained := fun c hc =>
    (child_parent hc).elim fun p hp => h.tree.listed hp
  have named := indexed_named x h.tree.owned free
  have tallied : Tallied (fun id => ((staged nodes).get id).or (mounted id))
      (fun id => ((staged nodes).get id).isSome || decide (id ∈ retained)) ⟨0, ∅, ∅⟩ nodes :=
    ⟨fun n hn => ⟨h.counts n hn, h.data n hn⟩, h.labelled, by simpa using h.dialogs, h.instances,
      by simp, h.tree.owned, fun c hc => ⟨(indexed_listed x).mpr (children c hc), by simp⟩⟩
  obtain ⟨tally, htally⟩ := (check_nodes_accepts (Nat.zero_le 1)).mpr tallied
  have hownership := (check_nodes htally).2.2 root
  have start := sweep_start (staged nodes) root owner nodes.length
  have owning := owning_start (staged nodes) root owner nodes.length
  obtain ⟨t, ht⟩ := (walk_answers x h.tree.distinct h.tree.owned children h.tree.root_listed
    nodes.length).resolve_right fun ⟨e, he⟩ => traverse_accepts named h.labels start owning he
  have s := traverse_sweep named start owning ht
  obtain ⟨w, hp⟩ := traverse_walk (walk_start (staged nodes) retained root owner nodes.length) ht
  have hcard : t.reached.card = nodes.length + retained.card := by
    have everything : (ids nodes).toFinset ∪ retained ⊆ t.reached := by
      intro id hid
      rw [Finset.mem_union, List.mem_toFinset] at hid
      exact sweep_all x s hp (h.tree.reached id hid)
    have hdisjoint : Disjoint (ids nodes).toFinset retained := by
      rw [Finset.disjoint_left]
      exact fun id hid => h.tree.apart id (List.mem_toFinset.mp hid)
    rw [Finset.Subset.antisymm (reached_listed x w) everything,
      Finset.card_union_of_disjoint hdisjoint, List.toFinset_card_of_nodup h.tree.distinct, ids,
      List.length_map]
  refine ⟨⟨staged nodes, t.inputOwners, t.postorder, t.visits⟩, ?_⟩
  simp only [validateFragment, except_guard_ok, except_bind_ok, not_not]
  refine ⟨h.root_reserved, not_lt.mpr h.sized, staged nodes, ?_,
    (indexed_listed x).mpr h.tree.root_listed, tally, ?_, ?_, t, ht, hcard, rfl⟩
  · rw [hindex]
    rfl
  · rw [htally]
    rfl
  · rw [hownership]
    simp [free]

theorem accepted_admissible {validated : ValidatedFragment K}
    (h : validateFragment root nodes retained owner mounted = .ok validated) :
    Admissible root nodes retained owner mounted := by
  have f := validated_fragment h
  have free (p : ℕ) (hp : Parent nodes p root) : False := f.root_free (parent_child hp)
  simp only [validateFragment, except_guard_ok, except_bind_ok, not_not] at h
  obtain ⟨hroot, hsize, fresh, hindex, -, tally, htally, -, t, ht, hcard, -⟩ := h
  have x := indexed (refuse_ok hindex)
  have named := indexed_named x f.owned f.root_free
  have tallied := (check_nodes_accepts (Nat.zero_le 1)).mp ⟨tally, refuse_ok htally⟩
  have owning := traverse_owning (owning_start fresh root owner nodes.length) ht
  have s := traverse_sweep named (sweep_start fresh root owner nodes.length)
    (owning_start fresh root owner nodes.length) ht
  have hfresh : fresh = staged nodes := index_staged (refuse_ok hindex)
  have everything : ∀ id, id ∈ ids nodes ∨ id ∈ retained → id ∈ t.reached := by
    intro id hid
    obtain ⟨w, -⟩ := traverse_walk (walk_start fresh retained root owner nodes.length) ht
    have hle : ((ids nodes).toFinset ∪ retained).card ≤ t.reached.card := by
      rw [hcard]
      refine (Finset.card_union_le _ _).trans (Nat.add_le_add_right ?_ _)
      exact (List.toFinset_card_le _).trans (by simp [ids])
    rw [Finset.eq_of_subset_of_card_le (reached_listed x w) hle, Finset.mem_union, List.mem_toFinset]
    exact hid
  have reached : ∀ id, id ∈ ids nodes ∨ id ∈ retained →
      Relation.ReflTransGen (Parent nodes) root id := by
    intro id hid
    refine Relation.ReflTransGen.mono (fun p c hc => ?_) _ _ (s.reach id (.inl (everything id hid)))
    exact (indexed_below x).mp hc
  have listed {p c : ℕ} (hpc : Parent nodes p c) : c ∈ ids nodes ∨ c ∈ retained :=
    f.listed c (parent_child hpc)
  have tree : OneTree root nodes retained := by
    refine ⟨f.distinct, f.apart, f.root_listed, free, listed, f.owned, reached, fun id hcycle => ?_⟩
    obtain ⟨p, -, hp⟩ := Relation.TransGen.tail'_iff.mp hcycle
    exact reached_acyclic f.owned free (reached id (listed hp)) hcycle
  refine ⟨tree, fun n hn => (tallied.shapes n hn).1, fun n hn => ?_, hroot,
    index_reserved (refuse_ok hindex), not_lt.mp hsize, tallied.labelled,
    by simpa using tallied.dialogs, tallied.instances, ?_⟩
  · rw [← hfresh]
    exact (tallied.shapes n hn).2
  · rw [← hfresh]
    intro x' y o l hx hy hox hoy
    -- the walk has noted both inputs under the owner that each has
    have note {z : ℕ} (hz : InputAt fresh z l) (hoz : OwnedIn fresh root owner z o) :
        t.inputOwners.get z = some o := by
      obtain ⟨n, enabled, hn, hk⟩ := hz
      have hid : z ∈ ids nodes := (indexed_some x).mp (by simp [hn])
      obtain ⟨q, hq⟩ := s.noted (everything z (.inl hid)) ⟨n, enabled, hn, hk⟩
      rw [hq, owned_in_unique named (owning.owned hq) hoz]
    exact owning.apart hx hy (note hx hox) (note hy hoy)

end Accepted

section Claims

/-- A fragment is accepted exactly when it is a tree whose nodes keep their rules, and
every list of nodes is answered. -/
theorem fragment_accepted (root : ℕ) (nodes : List (Node K)) (retained : Finset ℕ)
    (owner : Option ℕ) (mounted : ℕ → Option (Node K)) :
    ((∃ validated, validateFragment root nodes retained owner mounted = .ok validated) ↔
      Admissible root nodes retained owner mounted) ∧
    ((∃ validated, validateFragment root nodes retained owner mounted = .ok validated) ∨
      ∃ e, validateFragment root nodes retained owner mounted = .error (.error e)) := by
  refine ⟨⟨?_, admissible_accepted⟩, validate_answers root nodes retained owner mounted⟩
  rintro ⟨validated, h⟩
  exact accepted_admissible h

def unlabelled : List (Node ℕ) := [⟨1, .textInput "" true, []⟩]

theorem unlabelled_tree : OneTree 1 unlabelled ∅ := by
  have none {p c : ℕ} : ¬Parent unlabelled p c := by
    rintro ⟨n, hn, -, hc⟩
    obtain rfl := List.mem_singleton.mp hn
    cases hc
  refine ⟨by decide, by simp, .inl (by decide), fun p => none, fun h => absurd h none, by decide,
    fun id hid => ?_, fun id hcycle => ?_⟩
  · obtain rfl : id = 1 := by simpa [ids, unlabelled] using hid
    exact .refl
  · obtain ⟨p, -, hp⟩ := Relation.TransGen.tail'_iff.mp hcycle
    exact none hp

/-- One tree with its child counts is refused for its label. -/
theorem unlabelled_refused :
    ¬∀ (root : ℕ) (nodes : List (Node ℕ)) (retained : Finset ℕ) (owner : Option ℕ)
      (mounted : ℕ → Option (Node ℕ)),
      (∃ validated, validateFragment root nodes retained owner mounted = .ok validated) ↔
        OneTree root nodes retained ∧ ∀ n ∈ nodes, ChildCount n := by
  intro h
  have counts : ∀ n ∈ unlabelled, ChildCount n := by
    intro n hn
    obtain rfl := List.mem_singleton.mp hn
    rfl
  obtain ⟨validated, haccepted⟩ := (h 1 unlabelled ∅ none fun _ => none).mpr ⟨unlabelled_tree, counts⟩
  have hlabel := (accepted_admissible haccepted).labelled ⟨1, .textInput "" true, []⟩
    (List.mem_singleton.mpr rfl)
  exact hlabel ⟨true, rfl⟩

end Claims

end FragmentAcceptance
