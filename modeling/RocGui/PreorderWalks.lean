import Mathlib.Data.List.Nodup
import Mathlib.Logic.Relation
import Mathlib.Tactic.Common

/-! Preorders of trees: what a walk with an explicit stack lists, in which order, and what is left of
it when the walk skips whole subtrees. -/
namespace PreorderWalks

variable {α : Type*} {kids shown : α → List α} {pending listed : List α} {a b : α}

inductive Preorder (kids : α → List α) : List α → List α → Prop where
  | done : Preorder kids [] []
  | enter {a : α} {pending listed : List α} : Preorder kids (kids a ++ pending) listed →
    Preorder kids (a :: pending) (a :: listed)

def Under (kids : α → List α) : α → α → Prop := Relation.ReflTransGen fun a b => b ∈ kids a

def Before (listed : List α) (a b : α) : Prop := [a, b].Sublist listed

namespace Preorder

theorem unique {listed' : List α} (h : Preorder kids pending listed) (h' : Preorder kids pending listed') :
    listed = listed' := by
  induction h generalizing listed' with
  | done =>
    cases h'
    rfl
  | enter _ ih =>
    cases h' with
    | enter h' => rw [ih h']

theorem split {front back : List α} (h : Preorder kids pending listed) (heq : pending = front ++ back) :
    ∃ first last, listed = first ++ last ∧ Preorder kids front first ∧ Preorder kids back last := by
  induction h generalizing front with
  | done =>
    obtain ⟨rfl, rfl⟩ := List.append_eq_nil_iff.mp heq.symm
    exact ⟨[], [], rfl, .done, .done⟩
  | @enter a pending listed h ih =>
    cases front with
    | nil =>
      rw [List.nil_append] at heq
      exact ⟨[], a :: listed, rfl, .done, heq ▸ .enter h⟩
    | cons c front =>
      obtain ⟨rfl, rfl⟩ := List.cons.inj heq
      obtain ⟨first, last, rfl, hfirst, hlast⟩ := ih (List.append_assoc _ _ _).symm
      exact ⟨a :: first, last, rfl, .enter hfirst, hlast⟩

theorem pending_listed (h : Preorder kids pending listed) (ha : a ∈ pending) : a ∈ listed := by
  induction h with
  | done => cases ha
  | enter _ ih =>
    rcases List.mem_cons.mp ha with rfl | ha
    · exact List.mem_cons_self
    · exact List.mem_cons_of_mem _ (ih (List.mem_append_right _ ha))

theorem segment (h : Preorder kids pending listed) (ha : a ∈ listed) :
    ∃ front sub back, listed = front ++ a :: sub ++ back ∧ Preorder kids (kids a) sub := by
  induction h with
  | done => cases ha
  | @enter c pending listed h ih =>
    rcases List.mem_cons.mp ha with rfl | ha
    · obtain ⟨sub, back, rfl, hsub, -⟩ := h.split rfl
      exact ⟨[], sub, back, rfl, hsub⟩
    · obtain ⟨front, sub, back, rfl, hsub⟩ := ih ha
      exact ⟨c :: front, sub, back, rfl, hsub⟩

theorem kid_listed (h : Preorder kids pending listed) (ha : a ∈ listed) (hb : b ∈ kids a) : b ∈ listed := by
  obtain ⟨front, sub, back, rfl, hsub⟩ := h.segment ha
  have hmem := hsub.pending_listed hb
  simp [hmem]

theorem under_listed (h : Preorder kids pending listed) (ha : a ∈ listed) (hab : Under kids a b) :
    b ∈ listed := by
  induction hab with
  | refl => exact ha
  | tail _ hc ih => exact h.kid_listed ih hc

/-- Skipping the nodes without a property that is passed down leaves the others in order. -/
theorem filtered {P : α → Bool} (shows : ∀ a, P a = true → shown a = (kids a).filter P)
    (down : ∀ a, P a = false → ∀ c ∈ kids a, P c = false) (h : Preorder kids pending listed) :
    Preorder shown (pending.filter P) (listed.filter P) := by
  induction h with
  | done => exact .done
  | @enter a pending listed _ ih =>
    rw [List.filter_append] at ih
    cases ha : P a with
    | true =>
      rw [List.filter_cons_of_pos ha, List.filter_cons_of_pos ha]
      rw [← shows a ha] at ih
      exact .enter ih
    | false =>
      have hnone : (kids a).filter P = [] := by
        refine List.filter_eq_nil_iff.mpr fun c hc => ?_
        rw [down a ha c hc]
        exact Bool.false_ne_true
      rw [List.filter_cons_of_neg (by rw [ha]; exact Bool.false_ne_true),
        List.filter_cons_of_neg (by rw [ha]; exact Bool.false_ne_true)]
      rw [hnone, List.nil_append] at ih
      exact ih

theorem under_below (h : Preorder kids (kids a) listed) (hab : Under kids a b) (hne : b ≠ a) : b ∈ listed := by
  rcases Relation.ReflTransGen.cases_head hab with heq | ⟨c, hc, hcb⟩
  · exact absurd heq.symm hne
  · exact h.under_listed (h.pending_listed hc) hcb

theorem ancestor_before (h : Preorder kids pending listed) (ha : a ∈ listed) (hab : Under kids a b)
    (hne : b ≠ a) : Before listed a b := by
  obtain ⟨front, sub, back, rfl, hsub⟩ := h.segment ha
  have hb : b ∈ sub := hsub.under_below hab hne
  have hsegment : [a, b].Sublist (a :: sub) := List.Sublist.cons_cons a (List.singleton_sublist.mpr hb)
  have hfront : [a, b].Sublist (front ++ a :: sub) := hsegment.trans (List.sublist_append_right _ _)
  exact hfront.trans (List.sublist_append_left _ _)

theorem siblings_before (h : Preorder kids pending listed) {p c d : α} (hp : p ∈ listed)
    {front back : List α} (hkids : kids p = front ++ c :: back) (hd : d ∈ back) (hca : Under kids c a)
    (hdb : Under kids d b) : Before listed a b := by
  obtain ⟨left, sub, right, rfl, hsub⟩ := h.segment hp
  obtain ⟨first, rest, rfl, -, hrest⟩ := hsub.split hkids
  obtain ⟨mid, last, rfl, hmid, hlast⟩ := hrest.split (List.singleton_append (l := back)).symm
  have ha : a ∈ mid := hmid.under_listed (hmid.pending_listed List.mem_cons_self) hca
  have hb : b ∈ last := hlast.under_listed (hlast.pending_listed hd) hdb
  have htwo : [a, b].Sublist (mid ++ last) :=
    List.Sublist.append (List.singleton_sublist.mpr ha) (List.singleton_sublist.mpr hb)
  have hsub : [a, b].Sublist (p :: (first ++ (mid ++ last))) :=
    (htwo.trans (List.sublist_append_right _ _)).cons p
  have hleft := hsub.trans (List.sublist_append_right left _)
  exact hleft.trans (List.sublist_append_left _ _)

end Preorder

section Ways

/-- The way down to a node from the top of its tree. -/
inductive Way (kids : α → List α) (root : α) : α → List α → Prop where
  | top : Way kids root root [root]
  | down {p x : α} {path : List α} : Way kids root p path → x ∈ kids p → Way kids root x (path ++ [x])

namespace Way

variable {root p x y : α} {path front rest : List α}

theorem last (way : Way kids root x path) : ∃ front, path = front ++ [x] := by
  cases way with
  | top => exact ⟨[], rfl⟩
  | down => exact ⟨_, rfl⟩

theorem first (way : Way kids root x path) : ∃ rest, path = root :: rest := by
  induction way with
  | top => exact ⟨[], rfl⟩
  | down _ _ ih =>
    obtain ⟨rest, rfl⟩ := ih
    exact ⟨_, rfl⟩

theorem under (way : Way kids root x path) (heq : path = front ++ y :: rest) : Under kids y x := by
  induction way generalizing rest with
  | top =>
    obtain rfl : root = y := by
      cases front with
      | nil => exact (List.cons.inj heq).1
      | cons z front => simp at heq
    exact .refl
  | @down p x path _ hx ih =>
    rcases List.eq_nil_or_concat rest with rfl | ⟨rest, z, rfl⟩
    · obtain ⟨-, hxy⟩ := List.append_inj' heq rfl
      rw [(List.cons.inj hxy).1]
      exact .refl
    · rw [List.concat_eq_append, ← List.cons_append, ← List.append_assoc] at heq
      exact (ih (List.append_inj' heq rfl).1).tail hx

theorem step {c : α} (way : Way kids root x path) (heq : path = front ++ p :: c :: rest) : c ∈ kids p := by
  induction way generalizing rest with
  | top =>
    cases front with
    | nil => cases heq
    | cons z front => simp at heq
  | @down q x path above hx ih =>
    rcases List.eq_nil_or_concat rest with rfl | ⟨rest, z, rfl⟩
    · have htwo : front ++ [p, c] = (front ++ [p]) ++ [c] := by simp
      rw [htwo] at heq
      obtain ⟨hpath, hxc⟩ := List.append_inj' heq rfl
      obtain ⟨above, hlast⟩ := above.last
      obtain ⟨-, hqp⟩ := List.append_inj' (hlast.symm.trans hpath) rfl
      rw [← (List.cons.inj hqp).1, ← (List.cons.inj hxc).1]
      exact hx
    · rw [List.concat_eq_append, ← List.cons_append, ← List.cons_append, ← List.append_assoc] at heq
      exact ih (List.append_inj' heq rfl).1

end Way

theorem parting [DecidableEq α] (left right : List α) : ∃ common left' right', left = common ++ left' ∧
    right = common ++ right' ∧
    ((left.zip right).takeWhile fun pair => pair.1 = pair.2).length = common.length ∧
    ∀ c ∈ left'.head?, ∀ d ∈ right'.head?, c ≠ d := by
  induction left generalizing right with
  | nil => exact ⟨[], [], right, rfl, rfl, rfl, nofun⟩
  | cons a left ih =>
    cases right with
    | nil => exact ⟨[], a :: left, [], rfl, rfl, rfl, fun _ _ => nofun⟩
    | cons b right =>
      by_cases heq : a = b
      · subst heq
        obtain ⟨common, left', right', rfl, rfl, hlength, hapart⟩ := ih right
        refine ⟨a :: common, left', right', rfl, rfl, ?_, hapart⟩
        rw [List.zip_cons_cons, List.takeWhile_cons_of_pos (by simp), List.length_cons, hlength,
          List.length_cons]
      · refine ⟨[], a :: left, b :: right, rfl, rfl, ?_, ?_⟩
        · rw [List.zip_cons_cons, List.takeWhile_cons_of_neg (by simpa using heq)]
          rfl
        · rintro c hc d hd
          obtain rfl := Option.some.inj hc
          obtain rfl := Option.some.inj hd
          exact heq

end Ways

section Orders

theorem find_first [DecidableEq α] {c d : α} {front back : List α} (nodup : listed.Nodup)
    (heq : listed = front ++ c :: back) (hd : d ∈ back) :
    (listed.find? fun child => child = c ∨ child = d) = some c := by
  subst heq
  have hfront : ∀ x ∈ front, ¬(x = c ∨ x = d) := by
    intro x hx
    have hapart := (List.nodup_append.mp nodup).2.2 x hx
    rintro (rfl | rfl)
    · exact hapart x List.mem_cons_self rfl
    · exact hapart x (List.mem_cons_of_mem _ hd) rfl
  rw [List.find?_append, List.find?_eq_none.mpr fun x hx => by simpa using hfront x hx]
  simp

theorem before_irrefl (h : listed.Nodup) : ¬Before listed a a := by
  intro hbefore
  have := h.sublist hbefore
  simp at this

theorem before_cons {c : α} : Before (c :: listed) a b ↔ a = c ∧ b ∈ listed ∨ Before listed a b := by
  constructor
  · intro h
    cases h with
    | cons _ h => exact .inr h
    | cons_cons _ h => exact .inl ⟨rfl, List.singleton_sublist.mp h⟩
  · rintro (⟨rfl, hb⟩ | h)
    · exact List.Sublist.cons_cons a (List.singleton_sublist.mpr hb)
    · exact h.cons c

theorem before_right (h : Before listed a b) : b ∈ listed :=
  h.subset (List.mem_cons_of_mem _ List.mem_cons_self)

theorem before_asymm (h : listed.Nodup) (hab : Before listed a b) : ¬Before listed b a := by
  intro hba
  induction listed with
  | nil => cases hab
  | cons c rest ih =>
    obtain ⟨hc, hrest⟩ := List.nodup_cons.mp h
    rcases before_cons.mp hab with ⟨rfl, hb⟩ | hlater
    · rcases before_cons.mp hba with ⟨rfl, -⟩ | hearlier
      · exact hc hb
      · exact hc (before_right hearlier)
    · rcases before_cons.mp hba with ⟨rfl, -⟩ | hearlier
      · exact hc (before_right hlater)
      · exact ih hrest hlater hearlier

theorem before_trans {c : α} (h : listed.Nodup) (hab : Before listed a b) (hbc : Before listed b c) :
    Before listed a c := by
  induction listed with
  | nil => cases hab
  | cons d rest ih =>
    obtain ⟨hd, hrest⟩ := List.nodup_cons.mp h
    rcases before_cons.mp hbc with ⟨rfl, -⟩ | hlater
    · rcases before_cons.mp hab with ⟨-, hb⟩ | hearlier
      · exact absurd hb hd
      · exact absurd (before_right hearlier) hd
    · rcases before_cons.mp hab with ⟨rfl, -⟩ | hearlier
      · exact before_cons.mpr (.inl ⟨rfl, before_right hlater⟩)
      · exact before_cons.mpr (.inr (ih hrest hearlier hlater))

theorem before_total (ha : a ∈ listed) (hb : b ∈ listed) (hne : a ≠ b) :
    Before listed a b ∨ Before listed b a := by
  induction listed with
  | nil => cases ha
  | cons c rest ih =>
    rw [before_cons, before_cons]
    rcases List.mem_cons.mp ha with rfl | hrest
    · exact .inl (.inl ⟨rfl, (List.mem_cons.mp hb).resolve_left hne.symm⟩)
    · rcases List.mem_cons.mp hb with rfl | hb
      · exact .inr (.inl ⟨rfl, hrest⟩)
      · exact (ih hrest hb).imp .inr .inr

theorem fork_before [DecidableEq α] {p c d : α} (h : Preorder kids pending listed) (nodup : listed.Nodup)
    (hp : p ∈ listed) (hkids : (kids p).Nodup) (hc : c ∈ kids p) (hd : d ∈ kids p) (hne : c ≠ d)
    (hca : Under kids c a) (hdb : Under kids d b) :
    ((kids p).find? fun child => child = c ∨ child = d) = some c ↔ Before listed a b := by
  obtain ⟨front, back, heq⟩ := List.append_of_mem hc
  rw [heq] at hd
  rcases List.mem_append.mp hd with hd | hd
  · obtain ⟨front, mid, rfl⟩ := List.append_of_mem hd
    have hsplit : kids p = front ++ d :: (mid ++ c :: back) := by simp [heq]
    have hmem : c ∈ mid ++ c :: back := List.mem_append_right _ List.mem_cons_self
    have hfind := find_first hkids hsplit hmem
    simp only [or_comm (a := _ = d)] at hfind
    rw [hfind]
    refine iff_of_false (fun hdc => hne (Option.some.inj hdc).symm) ?_
    exact before_asymm nodup (h.siblings_before hp hsplit hmem hdb hca)
  · have hd : d ∈ back := (List.mem_cons.mp hd).resolve_left hne.symm
    exact iff_of_true (find_first hkids heq hd) (h.siblings_before hp heq hd hca hdb)

end Orders

end PreorderWalks
