import Mathlib.Algebra.Order.BigOperators.Group.List
import Mathlib.Data.Set.Card
import Mathlib.Data.Set.Finite.Lattice
import Mathlib.Logic.Relation

/-! Trees kept as child places, parent pointers and cached weights, and what an edit
has to get right so that they stay trees. -/
namespace PointerTrees

variable {α L : Type*}

/-- `places` lists the children of a mounted node, each with its place. -/
@[ext]
structure Forest (α L : Type*) where
  places : α → Option (List (α × L))
  parent : α → Option L
  weight : α → ℕ

namespace Forest

variable (F : Forest α L)

def Mounted (a : α) : Prop := (F.places a).isSome

def kids (a : α) : List (α × L) := (F.places a).getD []

def Child (a c : α) : Prop := ∃ l, (c, l) ∈ F.kids a

def Below : α → α → Prop := Relation.ReflTransGen F.Child

def total (cs : List (α × L)) : ℕ := (cs.map fun c => F.weight c.1).sum

end Forest

/-- Places and parent pointers agree, and only the root has no place. -/
structure Linked (owner : L → α) (F : Forest α L) (root : Option α) : Prop where
  owned : ∀ {a c l}, (c, l) ∈ F.kids a → owner l = a
  distinct : ∀ a, (F.kids a).Nodup
  rooted : ∀ r ∈ root, F.Mounted r ∧ F.parent r = none
  unparented : ∀ {a}, F.Mounted a → F.parent a = none → root = some a
  placed : ∀ {a c l}, (c, l) ∈ F.kids a → F.Mounted c ∧ F.parent c = some l
  listed : ∀ {c l}, F.Mounted c → F.parent c = some l → (c, l) ∈ F.kids (owner l)

def Weighed (F : Forest α L) : Prop := ∀ a, F.Mounted a → F.weight a = 1 + F.total (F.kids a)

section Trees

variable {owner : L → α} {F : Forest α L} {root : Option α} {a b c x : α} {l : L}

theorem linked_congr {F' : Forest α L} (h : Linked owner F root) (places : F'.places = F.places)
    (parent : F'.parent = F.parent) : Linked owner F' root := by
  obtain ⟨_, _, _⟩ := F'
  cases places
  cases parent
  exact ⟨h.owned, h.distinct, h.rooted, h.unparented, h.placed, h.listed⟩

theorem mounted_of_kid (h : (c, l) ∈ F.kids a) : F.Mounted a := by
  cases hp : F.places a with
  | none => simp [Forest.kids, hp] at h
  | some cs => simp [Forest.Mounted, hp]

theorem mounted_owner (h : Linked owner F root) (hc : F.Mounted c) (hl : F.parent c = some l) :
    F.Mounted (owner l) := mounted_of_kid (h.listed hc hl)

theorem child_unique (h : Linked owner F root) (ha : F.Child a c) (hb : F.Child b c) : a = b := by
  obtain ⟨l, hl⟩ := ha
  obtain ⟨m, hm⟩ := hb
  have heq : l = m := Option.some.inj ((h.placed hl).2.symm.trans (h.placed hm).2)
  rw [← h.owned hl, ← h.owned hm, heq]

theorem kids_nodup (h : Linked owner F root) (a : α) : ((F.kids a).map Prod.fst).Nodup := by
  refine List.Nodup.map_on ?_ (h.distinct a)
  rintro ⟨c, l⟩ hl ⟨d, m⟩ hm rfl
  exact Prod.ext rfl (Option.some.inj ((h.placed hl).2.symm.trans (h.placed hm).2))

theorem weight_le_total (hc : (c, l) ∈ F.kids a) : F.weight c ≤ F.total (F.kids a) :=
  List.le_sum_of_mem (List.mem_map_of_mem hc)

theorem weight_child (w : Weighed F) (hc : F.Child a c) : F.weight c < F.weight a := by
  obtain ⟨l, hl⟩ := hc
  have := weight_le_total hl
  rw [w a (mounted_of_kid hl)]
  omega

theorem weight_below (w : Weighed F) (h : F.Below a b) : F.weight b ≤ F.weight a := by
  induction h with
  | refl => exact le_rfl
  | tail _ hc ih => exact (weight_child w hc).le.trans ih

theorem below_total (h : Linked owner F root) (ha : F.Below a x) (hb : F.Below b x) :
    F.Below a b ∨ F.Below b a := by
  have unique : Relator.RightUnique (Function.swap F.Child) := fun _ _ _ => child_unique h
  rcases Relation.ReflTransGen.total_of_right_unique unique ha.swap hb.swap with hab | hba
  · exact .inr hab.swap
  · exact .inl hba.swap

theorem siblings_apart (h : Linked owner F root) (w : Weighed F) (hb : F.Child a b)
    (hc : F.Child a c) (hbx : F.Below b x) (hcx : F.Below c x) : b = c := by
  -- a child strictly below its sibling would put their parent below itself
  have strict {p q : α} (hp : F.Child a p) (hq : F.Child a q) (hpq : F.Below p q) : p = q := by
    rcases Relation.ReflTransGen.cases_tail hpq with heq | ⟨y, hpy, hyq⟩
    · exact heq.symm
    · obtain rfl := child_unique h hyq hq
      exact absurd (weight_below w hpy) (weight_child w hp).not_ge
  rcases below_total h hbx hcx with hbc | hcb
  · exact strict hb hc hbc
  · exact (strict hc hb hcb).symm

theorem descendants_listed (h : Linked owner F root) (w : Weighed F) (ha : F.Mounted a) :
    ∃ xs : List α, xs.Nodup ∧ xs.length = F.weight a ∧ ∀ x, x ∈ xs ↔ F.Below a x := by
  induction hn : F.weight a using Nat.strong_induction_on generalizing a with
  | _ n ih =>
  have below (c : α × L) (hc : c ∈ F.kids a) : ∃ xs : List α, xs.Nodup ∧
      xs.length = F.weight c.1 ∧ ∀ x, x ∈ xs ↔ F.Below c.1 x :=
    ih _ (hn ▸ weight_child w ⟨c.2, hc⟩) (h.placed hc).1 rfl
  choose! xs nodup length mem using below
  have mem_all (x : α) : x ∈ (F.kids a).flatMap xs ↔ ∃ c, F.Child a c ∧ F.Below c x := by
    rw [List.mem_flatMap]
    constructor
    · rintro ⟨c, hc, hx⟩
      exact ⟨c.1, ⟨c.2, hc⟩, (mem c hc x).mp hx⟩
    · rintro ⟨c, ⟨l, hl⟩, hx⟩
      exact ⟨(c, l), hl, (mem _ hl x).mpr hx⟩
  refine ⟨a :: (F.kids a).flatMap xs, List.nodup_cons.mpr ⟨?_, ?_⟩, ?_, fun x => ?_⟩
  · rw [mem_all]
    rintro ⟨c, hc, hca⟩
    exact absurd (weight_below w hca) (weight_child w hc).not_ge
  · rw [List.nodup_flatMap]
    refine ⟨nodup, (h.distinct a).imp_of_mem fun {c d} hc hd hne x hcx hdx => hne ?_⟩
    have heq : c.1 = d.1 := siblings_apart h w ⟨c.2, hc⟩ ⟨d.2, hd⟩ ((mem c hc x).mp hcx)
      ((mem d hd x).mp hdx)
    exact List.inj_on_of_nodup_map (kids_nodup h a) hc hd heq
  · rw [← hn, w a ha, List.length_cons, List.length_flatMap, List.map_congr_left length, add_comm]
    rfl
  · rw [List.mem_cons, mem_all]
    constructor
    · rintro (rfl | ⟨c, hc, hx⟩)
      · exact .refl
      · exact .head hc hx
    · intro hx
      rcases Relation.ReflTransGen.cases_head hx with rfl | ⟨c, hc, hcx⟩
      · exact .inl rfl
      · exact .inr ⟨c, hc, hcx⟩

theorem weight_eq_ncard (h : Linked owner F root) (w : Weighed F) (ha : F.Mounted a) :
    F.weight a = {x | F.Below a x}.ncard := by
  classical
  obtain ⟨xs, nodup, length, mem⟩ := descendants_listed h w ha
  rw [← length, ← List.toFinset_card_of_nodup nodup, ← Set.ncard_coe_finset]
  congr 1
  ext x
  simp [mem]

/-- Weights grow along the parent pointers, so every way up ends, and at the root. -/
theorem reached (h : Linked owner F root) (w : Weighed F) (finite : {a | F.Mounted a}.Finite)
    (ha : F.Mounted a) : ∃ r, root = some r ∧ F.Below r a := by
  obtain ⟨top, htop⟩ := (finite.image F.weight).bddAbove
  have bound (b : α) (hb : F.Mounted b) : F.weight b ≤ top := htop ⟨b, hb, rfl⟩
  induction hn : top - F.weight a using Nat.strong_induction_on generalizing a with
  | _ n ih =>
  cases hp : F.parent a with
  | none => exact ⟨a, h.unparented ha hp, .refl⟩
  | some l =>
    have hc : F.Child (owner l) a := ⟨l, h.listed ha hp⟩
    have ho := mounted_owner h ha hp
    have hlt := weight_child w hc
    have hle := bound _ ho
    obtain ⟨r, hr, hbelow⟩ := ih (top - F.weight (owner l)) (by omega) ho rfl
    exact ⟨r, hr, hbelow.tail hc⟩

end Trees

section Exchange

/-- An edit that takes nodes out, puts nodes in and rewrites the children of one
mounted node, the site. A node whose parent went or is the site gets a new place. -/
structure Exchange (owner : L → α) (F F' : Forest α L) (root root' : Option α)
    (removed added : α → Prop) (site : Option α) : Prop where
  mounted : ∀ a, F'.Mounted a ↔ F.Mounted a ∧ ¬removed a ∨ added a
  kept : ∀ {a}, F.Mounted a → ¬removed a → site ≠ some a → F'.places a = F.places a
  owned : ∀ {a c l}, added a ∨ site = some a → (c, l) ∈ F'.kids a → owner l = a
  distinct : ∀ {a}, added a ∨ site = some a → (F'.kids a).Nodup
  placed : ∀ {a c l}, added a ∨ site = some a → (c, l) ∈ F'.kids a →
    F'.Mounted c ∧ F'.parent c = some l
  removed_below : ∀ {c l}, removed c → F.parent c = some l →
    removed (owner l) ∨ site = some (owner l)
  still : ∀ {c l}, F.Mounted c → ¬removed c → F.parent c = some l → ¬removed (owner l) →
    site ≠ some (owner l) → F'.parent c = some l
  resettled : ∀ {c}, (added c ∨ F.Mounted c ∧ ¬removed c ∧
      ∃ l, F.parent c = some l ∧ (removed (owner l) ∨ site = some (owner l))) →
    (∃ l, F'.parent c = some l ∧ (c, l) ∈ F'.kids (owner l)) ∨ root' = some c
  rooted : ∀ r ∈ root', F'.Mounted r ∧ F'.parent r = none
  root_kept : ∀ r ∈ root, removed r ∨ root' = some r

variable {owner : L → α} {F F' : Forest α L} {root root' : Option α} {removed added : α → Prop}
  {site : Option α}

theorem kids_of_places {a : α} (h : F'.places a = F.places a) : F'.kids a = F.kids a := by
  rw [Forest.kids, h, Forest.kids]

theorem Exchange.kid_kept (e : Exchange owner F F' root root' removed added site)
    (h : Linked owner F root) {a c : α} {l : L} (hr : ¬removed a) (hs : site ≠ some a)
    (hc : (c, l) ∈ F.kids a) : F'.Mounted c ∧ F'.parent c = some l := by
  obtain ⟨hm, hp⟩ := h.placed hc
  have ho := h.owned hc
  have hn : ¬removed c := by
    intro hrc
    rcases e.removed_below hrc hp with hro | hso
    · exact hr (ho ▸ hro)
    · exact hs (ho ▸ hso)
  exact ⟨(e.mounted c).mpr (.inl ⟨hm, hn⟩), e.still hm hn hp (ho ▸ hr) (ho ▸ hs)⟩

theorem Exchange.linked (e : Exchange owner F F' root root' removed added site)
    (h : Linked owner F root) : Linked owner F' root' := by
  have split (a : α) (ha : F'.Mounted a) : (added a ∨ site = some a) ∨
      F.Mounted a ∧ ¬removed a ∧ site ≠ some a ∧ F'.kids a = F.kids a := by
    by_cases hs : site = some a
    · exact .inl (.inr hs)
    rcases (e.mounted a).mp ha with ⟨hm, hr⟩ | hadd
    · exact .inr ⟨hm, hr, hs, kids_of_places (e.kept hm hr hs)⟩
    · exact .inl (.inl hadd)
  refine ⟨?_, fun a => ?_, e.rooted, ?_, ?_, ?_⟩
  · intro a c l hc
    rcases split a (mounted_of_kid hc) with hnew | ⟨-, -, -, heq⟩
    · exact e.owned hnew hc
    · exact h.owned (heq ▸ hc)
  · by_cases ha : F'.Mounted a
    · rcases split a ha with hnew | ⟨-, -, -, heq⟩
      · exact e.distinct hnew
      · exact heq ▸ h.distinct a
    · rw [Forest.kids, Option.not_isSome_iff_eq_none.mp ha]
      exact List.nodup_nil
  · intro c hm hp
    by_cases hnew : added c ∨ F.Mounted c ∧ ¬removed c ∧
        ∃ l, F.parent c = some l ∧ (removed (owner l) ∨ site = some (owner l))
    · rcases e.resettled hnew with ⟨l, hl, -⟩ | hroot
      · simp [hp] at hl
      · exact hroot
    · simp only [not_or, not_and, not_exists] at hnew
      obtain ⟨hm', hr⟩ : F.Mounted c ∧ ¬removed c :=
        ((e.mounted c).mp hm).resolve_right hnew.1
      cases hpar : F.parent c with
      | none => exact (e.root_kept c (h.unparented hm' hpar)).resolve_left hr
      | some l =>
        obtain ⟨hro, hso⟩ := hnew.2 hm' hr l hpar
        simp [e.still hm' hr hpar hro hso] at hp
  · intro a c l hc
    rcases split a (mounted_of_kid hc) with hnew | ⟨-, hr, hs, heq⟩
    · exact e.placed hnew hc
    · exact e.kid_kept h hr hs (heq ▸ hc)
  · intro c l hm hp
    by_cases hnew : added c ∨ F.Mounted c ∧ ¬removed c ∧
        ∃ l, F.parent c = some l ∧ (removed (owner l) ∨ site = some (owner l))
    · rcases e.resettled hnew with ⟨m, hl, hc⟩ | hroot
      · rwa [Option.some.inj (hp.symm.trans hl)]
      · simp [(e.rooted c hroot).2] at hp
    · simp only [not_or, not_and, not_exists] at hnew
      obtain ⟨hm', hr⟩ : F.Mounted c ∧ ¬removed c :=
        ((e.mounted c).mp hm).resolve_right hnew.1
      cases hpar : F.parent c with
      | none => simp [(e.rooted c ((e.root_kept c (h.unparented hm' hpar)).resolve_left hr)).2] at hp
      | some m =>
        obtain ⟨hro, hso⟩ := hnew.2 hm' hr m hpar
        obtain rfl := Option.some.inj (hp.symm.trans (e.still hm' hr hpar hro hso))
        have hc := h.listed hm' hpar
        exact (kids_of_places (e.kept (mounted_of_kid hc) hro hso)).symm ▸ hc

end Exchange

section Resize

variable [DecidableEq α] {owner : L → α} {F : Forest α L} {root : Option α} {old new : ℕ}

/-- Every weight is right but that of `q`, which still counts `old` where `new` is
due. -/
structure Stale (F : Forest α L) (q : α) (old new : ℕ) : Prop where
  elsewhere : ∀ a, F.Mounted a → a ≠ q → F.weight a = 1 + F.total (F.kids a)
  here : F.weight q + new = 1 + F.total (F.kids q) + old
  within : new ≤ F.total (F.kids q)

def Forest.reweigh (F : Forest α L) (q : α) (w : ℕ) : Forest α L :=
  { F with weight := Function.update F.weight q w }

@[simp] theorem reweigh_self (q : α) (w : ℕ) : (F.reweigh q w).weight q = w :=
  Function.update_self ..

theorem reweigh_ne {a q : α} (w : ℕ) (h : a ≠ q) : (F.reweigh q w).weight a = F.weight a :=
  Function.update_of_ne h ..

@[simp] theorem reweigh_kids (q a : α) (w : ℕ) : (F.reweigh q w).kids a = F.kids a := rfl

/-- One turn of the walk that brings the weights up to date. -/
def Forest.resized (F : Forest α L) (q : α) (old new : ℕ) : Forest α L :=
  F.reweigh q (F.weight q - old + new)

theorem total_reweigh_away {q : α} {cs : List (α × L)} (w : ℕ) (h : q ∉ cs.map Prod.fst) :
    (F.reweigh q w).total cs = F.total cs := by
  refine congrArg List.sum (List.map_congr_left fun c hc => reweigh_ne w ?_)
  rintro rfl
  exact h (List.mem_map_of_mem hc)

theorem total_reweigh {q : α} {cs : List (α × L)} (w : ℕ) (nodup : (cs.map Prod.fst).Nodup)
    (h : q ∈ cs.map Prod.fst) : (F.reweigh q w).total cs + F.weight q = F.total cs + w := by
  induction cs with
  | nil => cases h
  | cons c cs ih =>
    rw [List.map_cons, List.nodup_cons] at nodup
    simp only [Forest.total, List.map_cons, List.sum_cons] at ih ⊢
    by_cases hq : q = c.1
    · subst hq
      have := total_reweigh_away (F := F) w nodup.1
      simp only [Forest.total] at this
      rw [this, reweigh_self]
      omega
    · have := ih nodup.2 ((List.mem_cons.mp h).resolve_left hq)
      rw [reweigh_ne w (Ne.symm hq)]
      omega

theorem reweigh_linked (h : Linked owner F root) (q : α) (w : ℕ) :
    Linked owner (F.reweigh q w) root := linked_congr h rfl rfl

/-- Right here, the weight that is wrong moves to the parent. -/
theorem stale_step (h : Linked owner F root) {q : α} (s : Stale F q old new)
    (irreflexive : ¬F.Child q q) :
    (F.parent q = none → Weighed (F.resized q old new)) ∧
    (F.Mounted q → ∀ l, F.parent q = some l →
      owner l ≠ q ∧ Stale (F.resized q old new) (owner l) old new) := by
  have hself : q ∉ (F.kids q).map Prod.fst := fun hq => by
    obtain ⟨⟨c, l⟩, hc, rfl⟩ := List.mem_map.mp hq
    exact irreflexive ⟨l, hc⟩
  have hhere : F.weight q - old + new = 1 + F.total (F.kids q) := by
    have := s.here
    have := s.within
    omega
  have here : (F.resized q old new).weight q = 1 + (F.resized q old new).total (F.kids q) := by
    rw [Forest.resized, total_reweigh_away _ hself, reweigh_self, hhere]
  have away (a : α) (ha : F.Mounted a) (hne : a ≠ q) (hout : q ∉ (F.kids a).map Prod.fst) :
      (F.resized q old new).weight a = 1 + (F.resized q old new).total (F.kids a) := by
    rw [Forest.resized, total_reweigh_away _ hout, reweigh_ne _ hne]
    exact s.elsewhere a ha hne
  have child_of {a : α} (hin : q ∈ (F.kids a).map Prod.fst) : ∃ l, (q, l) ∈ F.kids a := by
    obtain ⟨⟨c, l⟩, hc, rfl⟩ := List.mem_map.mp hin
    exact ⟨l, hc⟩
  refine ⟨fun hroot a ha => ?_, fun hm l hl => ?_⟩
  · by_cases hq : a = q
    · subst hq
      exact here
    · refine away a ha hq fun hin => ?_
      obtain ⟨l, hc⟩ := child_of hin
      simp [(h.placed hc).2] at hroot
  · have hc := h.listed hm hl
    have hne : owner l ≠ q := fun heq => irreflexive ⟨l, by rwa [heq] at hc⟩
    have hin : q ∈ (F.kids (owner l)).map Prod.fst := List.mem_map_of_mem hc
    refine ⟨hne, fun a ha ha' => ?_, ?_, ?_⟩
    · by_cases hq : a = q
      · subst hq
        exact here
      · refine away a ha hq fun hin' => ha' ?_
        obtain ⟨m, hc'⟩ := child_of hin'
        exact child_unique h ⟨m, hc'⟩ ⟨l, hc⟩
    · have htotal := total_reweigh (F := F) (F.weight q - old + new) (kids_nodup h _) hin
      have hweight := s.elsewhere (owner l) (mounted_of_kid hc) hne
      have := s.here
      have := s.within
      rw [Forest.resized, reweigh_ne _ hne, reweigh_kids]
      omega
    · have hle := weight_le_total (F := F.resized q old new) hc
      have : (F.resized q old new).total (F.kids q) = F.total (F.kids q) :=
        total_reweigh_away _ hself
      have := s.within
      rw [here] at hle
      omega

/-- The nodes from `q` up to the root. -/
inductive UpTo (owner : L → α) (parent : α → Option L) : Option α → List α → Prop where
  | top : UpTo owner parent none []
  | up {q : α} {qs : List α} : UpTo owner parent ((parent q).map owner) qs →
    UpTo owner parent (some q) (q :: qs)

section Ways

variable {owner : L → α} {F : Forest α L} {root : Option α} {a : α} {qs : List α}

omit [DecidableEq α] in
theorem way_up (h : Linked owner F root) (w : Weighed F) (finite : {a | F.Mounted a}.Finite)
    (ha : F.Mounted a) : ∃ qs, UpTo owner F.parent (some a) qs := by
  obtain ⟨r, hr, hbelow⟩ := reached h w finite ha
  induction hbelow with
  | refl =>
    refine ⟨[r], .up ?_⟩
    rw [(h.rooted r hr).2]
    exact .top
  | @tail b c _ hc ih =>
    obtain ⟨l, hl⟩ := hc
    obtain ⟨qs, hqs⟩ := ih (mounted_of_kid hl)
    refine ⟨c :: qs, .up ?_⟩
    rw [(h.placed hl).2, Option.map_some, h.owned hl]
    exact hqs

omit [DecidableEq α] in
theorem way_weights (h : Linked owner F root) (w : Weighed F) (up : UpTo owner F.parent (some a) qs)
    (ha : F.Mounted a) : (∀ q ∈ qs, F.Mounted q ∧ F.weight a ≤ F.weight q) ∧
      qs.Pairwise fun p q => F.weight p < F.weight q := by
  generalize hcur : some a = cur at up
  generalize hparent : F.parent = parent at up
  induction up generalizing a with
  | top => cases hcur
  | @up q qs rest ih =>
    obtain rfl := Option.some.inj hcur
    subst hparent
    cases hp : F.parent a with
    | none =>
      rw [hp, Option.map_none] at rest
      cases rest
      simp [ha]
    | some l =>
      have hkid := h.listed ha hp
      have hlt := weight_child w ⟨l, hkid⟩
      obtain ⟨above, apart⟩ := ih (mounted_of_kid hkid) (by rw [hp, Option.map_some])
      refine ⟨fun q hq => ?_, List.pairwise_cons.mpr ⟨fun q hq => ?_, apart⟩⟩
      · rcases List.mem_cons.mp hq with rfl | hq
        · exact ⟨ha, le_rfl⟩
        · exact ⟨(above q hq).1, hlt.le.trans (above q hq).2⟩
      · exact hlt.trans_le (above q hq).2

omit [DecidableEq α] in
theorem way_length (h : Linked owner F root) (w : Weighed F) (up : UpTo owner F.parent (some a) qs)
    (ha : F.Mounted a) {s : Finset α} (all : ∀ q, F.Mounted q → q ∈ s) : qs.length ≤ s.card := by
  classical
  obtain ⟨above, apart⟩ := way_weights h w up ha
  have nodup : qs.Nodup := apart.imp fun hlt heq => (ne_of_lt hlt) (congrArg F.weight heq)
  rw [← List.toFinset_card_of_nodup nodup]
  exact Finset.card_le_card fun q hq => all q (above q (List.mem_toFinset.mp hq)).1

end Ways

def Forest.resizedAlong (F : Forest α L) (old new : ℕ) : List α → Forest α L
  | [] => F
  | q :: qs => (F.resized q old new).resizedAlong old new qs

theorem resizedAlong_places (qs : List α) : (F.resizedAlong old new qs).places = F.places := by
  induction qs generalizing F with
  | nil => rfl
  | cons q qs ih => exact ih

theorem resizedAlong_parent (qs : List α) : (F.resizedAlong old new qs).parent = F.parent := by
  induction qs generalizing F with
  | nil => rfl
  | cons q qs ih => exact ih

theorem eq_resizedAlong {F' : Forest α L} {qs : List α} (places : F'.places = F.places)
    (parent : F'.parent = F.parent) (weight : F'.weight = (F.resizedAlong old new qs).weight) :
    F' = F.resizedAlong old new qs :=
  Forest.ext (places.trans (resizedAlong_places qs).symm)
    (parent.trans (resizedAlong_parent qs).symm) weight

/-- Once every ancestor is brought up to date no weight is wrong. -/
theorem weighed_along (h : Linked owner F root) (irreflexive : ∀ x, ¬F.Child x x) {q : α}
    {qs : List α} (mounted : F.Mounted q) (up : UpTo owner F.parent (some q) qs)
    (s : Stale F q old new) : Weighed (F.resizedAlong old new qs) := by
  generalize hcur : some q = cur at up
  generalize hparent : F.parent = parent at up
  induction up generalizing F q with
  | top => cases hcur
  | @up q' qs rest ih =>
    obtain rfl := Option.some.inj hcur
    obtain ⟨top, next⟩ := stale_step h s (irreflexive q)
    cases hp : F.parent q with
    | none =>
      rw [← hparent, hp] at rest
      cases rest
      exact top hp
    | some l =>
      obtain ⟨-, stale⟩ := next mounted l hp
      have ho := mounted_owner h mounted hp
      exact ih (reweigh_linked h q _) irreflexive ho stale (by rw [← hparent, hp]; rfl) hparent

/-- The walk may also start above `q`, whose own weight is replaced outright. -/
theorem weighed_above (h : Linked owner F root) (irreflexive : ∀ x, ¬F.Child x x) {q : α}
    {qs : List α} {size size' : ℕ} (mounted : F.Mounted q)
    (up : UpTo owner F.parent ((F.parent q).map owner) qs) (s : Stale F q old new)
    (before : F.weight q = size) (after : size' + old = size + new) :
    Weighed ((F.reweigh q size').resizedAlong size size' qs) := by
  obtain ⟨top, next⟩ := stale_step h s (irreflexive q)
  have heq : F.resized q old new = F.reweigh q size' := by
    have := s.here
    have := s.within
    rw [Forest.resized, show F.weight q - old + new = size' by omega]
  rw [heq] at top next
  cases hp : F.parent q with
  | none =>
    rw [hp] at up
    cases up
    exact top hp
  | some l =>
    rw [hp] at up
    obtain ⟨-, stale⟩ := next mounted l hp
    have hkid : (q, l) ∈ (F.reweigh q size').kids (owner l) := h.listed mounted hp
    have hle := weight_le_total hkid
    rw [reweigh_self] at hle
    refine weighed_along (reweigh_linked h q _) irreflexive
      (mounted_owner (reweigh_linked h q _) mounted hp) up
      ⟨stale.elsewhere, ?_, hle⟩
    have := stale.here
    omega

end Resize

end PointerTrees
