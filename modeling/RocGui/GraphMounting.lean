import RocGui.FragmentTrees
import RocGui.GraphForests
import RocGui.GraphPatches
import RocGui.KeyedOrderRuns

/-! What the pieces of a patch do to the nodes of a graph: mounting a fragment,
retiring nodes, resizing ancestors. Interaction state is left aside. -/
namespace GraphMounting

open FiniteMaps KeyedLists Methods KeyedOrder KeyedOrderLists GraphState FragmentValidation
open GraphPatches FragmentTrees GraphForests PointerTrees StackWalks

variable {K : Type}

def content (g : MountedGraph K) (id : ℕ) : Option (Node K × Option (KeyedChildOrder K)) :=
  (g.nodes.get id).map fun e => (e.node, e.keyedChildren)

/-- Everything but identity segments, indices and interaction state. -/
structure Outline (K : Type) where
  content : ℕ → Option (Node K × Option (KeyedChildOrder K))
  size : ℕ → Option ℕ
  parent : ℕ → Option (ParentLocation K)
  root : Option ℕ
  issued : ℕ

def outline (g : MountedGraph K) : Outline K :=
  ⟨content g, g.subtreeSize, g.parentLocation, g.root, g.maxSeenNodeId⟩

section Entries

variable {g g' : MountedGraph K} {id : ℕ} {e : MountedNode K}

theorem content_eq (h : g.nodes.get id = some e) : content g id = some (e.node, e.keyedChildren) := by
  rw [content, h]
  rfl

theorem size_eq (h : g.nodes.get id = some e) : g.subtreeSize id = some e.subtreeSize := by
  rw [MountedGraph.subtreeSize, h]
  rfl

theorem location_eq (h : g.nodes.get id = some e) : g.parentLocation id = e.parent := by
  rw [MountedGraph.parentLocation, h]
  rfl

theorem node_of_content : g.node id = (content g id).map Prod.fst := by
  rw [MountedGraph.node, content, Option.map_map]
  rfl

theorem content_is_some : (content g id).isSome ↔ (g.nodes.get id).isSome := by
  rw [content, Option.isSome_map]

def put (g : MountedGraph K) (id : ℕ) (e : MountedNode K) : MountedGraph K :=
  { g with nodes := g.nodes.set id e }

theorem content_put (id : ℕ) (e : MountedNode K) :
    content (put g id e) =
      Function.update (content g) id (some (e.node, e.keyedChildren)) := by
  funext x
  simp only [content, put, FiniteMap.get_set, Function.update_apply]
  split <;> rfl

theorem size_put (id : ℕ) (e : MountedNode K) :
    (put g id e).subtreeSize = Function.update g.subtreeSize id (some e.subtreeSize) := by
  funext x
  simp only [MountedGraph.subtreeSize, put, FiniteMap.get_set, Function.update_apply]
  split <;> rfl

theorem location_put (id : ℕ) (e : MountedNode K) :
    (put g id e).parentLocation = Function.update g.parentLocation id e.parent := by
  funext x
  simp only [MountedGraph.parentLocation, put, FiniteMap.get_set, Function.update_apply]
  split <;> rfl

theorem outline_put_segment (h : g.nodes.get id = some e) (segment : IdentitySegment) :
    outline (put g id { e with segment }) = outline g := by
  rw [outline, content_put, size_put, location_put, ← content_eq h, ← size_eq h, ← location_eq h,
    Function.update_eq_self, Function.update_eq_self, Function.update_eq_self]
  rfl

end Entries

section Frames

variable {c : Outline K} {id : ℕ}

theorem preserves_setSegment (message : String) (child : ℕ × IdentitySegment) :
    Preserves (fun g : MountedGraph K => outline g = c) (setSegment message child) := by
  intro g hg
  cases he : g.nodes.get child.1 with
  | none =>
    rw [setSegment, alter, run_bind_ok (EStateM.run_get g), he]
    exact hg
  | some e =>
    rw [setSegment, alter_run _ _ he, after_ok]
    exact (outline_put_segment he child.2).trans hg

theorem preserves_query {α : Type} {P : MountedGraph K → Prop} (f : MountedGraph K → Reading K α) :
    Preserves P (query f) :=
  preserves_bind preserves_get fun _ => preserves_ofExcept _

variable [DecidableEq K]

theorem preserves_refresh (parent : ℕ) :
    Preserves (fun g : MountedGraph K => outline g = c) (refreshChildSegments parent) := by
  refine preserves_bind (preserves_query _) fun children => ?_
  exact preserves_forM (preserves_setSegment _) children

end Frames

section Interaction

def withoutInteraction (g : MountedGraph K) : MountedGraph K := { g with interaction := .empty }

/-- What carrying interaction state over cannot break: it leaves the regions. -/
def Regardless (P : MountedGraph K → Prop) : Prop := ∀ g i,
  i.keyboard.regions = g.interaction.keyboard.regions →
  i.keyboard.windowRegions = g.interaction.keyboard.windowRegions → P g →
  P { g with interaction := i }

section Regardless

variable {P : MountedGraph K → Prop}

theorem preserves_notes (i : Interaction) (id : ℕ) (carry : InteractionCarry) :
    Preserves P (noteSerial i id carry : GraphMethod K _) ∧
      Preserves P (noteSize i id carry : GraphMethod K _) ∧
      Preserves P (noteEdges i id carry : GraphMethod K _) := by
  refine ⟨?_, ?_, ?_⟩
  · unfold noteSerial
    split
    · exact preserves_pure _
    · exact preserves_bind (preserves_query _) fun _ => preserves_pure _
  · unfold noteSize
    split
    · exact preserves_pure _
    · exact preserves_bind (preserves_query _) fun _ => preserves_pure _
  · unfold noteEdges
    split
    · exact preserves_bind (preserves_query _) fun _ => preserves_pure _
    · exact preserves_pure _

variable (hP : Regardless P)

include hP

theorem requestFocus_regardless (carry : InteractionCarry) (region : ℕ) :
    Preserves P (requestFocus carry region : GraphMethod K _) := by
  refine preserves_bind preserves_get fun g => ?_
  dsimp only
  split
  · exact preserves_bind (preserves_query _) fun _ => preserves_modify fun g h => hP g _ rfl rfl h
  · exact preserves_pure ()

theorem restoreOne_regardless (carry : InteractionCarry) (id : ℕ) :
    Preserves P (restoreOne carry id : GraphMethod K _) := by
  refine preserves_bind preserves_get fun g => ?_
  dsimp only
  split
  · exact preserves_pure ()
  · refine preserves_bind (preserves_query _) fun _ => ?_
    split
    · exact preserves_modify fun g h => hP g _ rfl rfl h
    · exact preserves_pure ()
  · split
    · exact preserves_pure ()
    · exact preserves_bind (preserves_query _) fun _ =>
        preserves_modify fun g h => hP g _ rfl rfl h

theorem restore_regardless (staged : List ℕ) (carry : InteractionCarry) :
    Preserves P (restoreInteraction staged carry : GraphMethod K _) := by
  refine preserves_bind preserves_get fun _ => preserves_bind
    (preserves_modify fun g h => hP g _ rfl rfl h) fun _ =>
    preserves_bind (preserves_forM (requestFocus_regardless hP carry) _) fun _ => ?_
  split
  · exact preserves_pure ()
  · exact preserves_forM (restoreOne_regardless hP carry) staged

theorem finish_regardless (previous : Option ℕ) (staged : List ℕ) (carry : InteractionCarry) :
    Preserves P (finishInteraction previous staged carry : GraphMethod K _) := by
  refine preserves_bind (restore_regardless hP staged carry) fun _ =>
    preserves_bind preserves_get fun _ => ?_
  dsimp only
  split
  · split
    · exact preserves_bind preserves_get fun _ => preserves_bind (preserves_query _) fun _ =>
        preserves_modify fun g h => hP g _ rfl rfl h
    · exact preserves_pure ()
  · exact preserves_pure ()

end Regardless

variable {c : MountedGraph K}

theorem preserves_carry (removed : List ℕ) :
    Preserves (fun g => withoutInteraction g = c) (carryInteraction removed : GraphMethod K _) := by
  refine preserves_foldlM (fun carry id => ?_) _ removed
  refine preserves_bind preserves_get fun g => ?_
  exact preserves_bind (preserves_notes _ id carry).1 fun _ =>
    preserves_bind (preserves_notes _ id _).2.1 fun _ => preserves_bind (preserves_notes _ id _).2.2
      fun _ => preserves_bind (preserves_modify fun _ h => h) fun _ => preserves_pure _

theorem preserves_finish (previous : Option ℕ) (staged : List ℕ) (carry : InteractionCarry) :
    Preserves (fun g => withoutInteraction g = c)
      (finishInteraction previous staged carry : GraphMethod K _) :=
  finish_regardless (fun _ _ _ _ h => h) previous staged carry

theorem outline_of_withoutInteraction {g g' : MountedGraph K}
    (h : withoutInteraction g' = withoutInteraction g) : outline g' = outline g :=
  show outline (withoutInteraction g') = outline (withoutInteraction g) from congrArg outline h

end Interaction

section Settling

variable {g g' : MountedGraph K} {id : ℕ} {e : MountedNode K}

structure SameContent (g g' : MountedGraph K) : Prop where
  content : content g' = content g
  root : g'.root = g.root
  issued : g'.maxSeenNodeId = g.maxSeenNodeId

theorem SameContent.trans {g'' : MountedGraph K} (h : SameContent g g') (h' : SameContent g' g'') :
    SameContent g g'' :=
  ⟨h'.content.trans h.content, h'.root.trans h.root, h'.issued.trans h.issued⟩

theorem sameContent_put (h : g.nodes.get id = some e) (e' : MountedNode K) (hn : e'.node = e.node)
    (hk : e'.keyedChildren = e.keyedChildren) : SameContent g (put g id e') := by
  refine ⟨?_, rfl, rfl⟩
  rw [content_put, hn, hk, ← content_eq h, Function.update_eq_self]

theorem sizes_ok {children sizes : List ℕ} (h : children.mapM (mountedSize g) = .ok sizes) :
    sizes = children.map fun c => (g.subtreeSize c).getD 0 := by
  induction children generalizing sizes with
  | nil =>
    cases h
    rfl
  | cons c cs ih =>
    simp only [List.mapM_cons, except_bind_ok] at h
    obtain ⟨size, hsize, rest, hrest, heq⟩ := h
    obtain rfl : size :: rest = sizes := Except.ok.inj heq
    rw [ih hrest, List.map_cons]
    congr 1
    unfold mountedSize at hsize
    split at hsize
    · rename_i hc
      rw [hc]
      exact (Except.ok.inj hsize).symm
    · cases hsize

variable [DecidableEq K]

theorem locate_congr (h : content g' = content g) (id i : ℕ) : locate g' id i = locate g id i := by
  have := congrFun h id
  unfold locate
  cases he : g.nodes.get id with
  | none =>
    cases he' : g'.nodes.get id with
    | none => rfl
    | some e' => simp [content, he, he'] at this
  | some e =>
    cases he' : g'.nodes.get id with
    | none => simp [content, he, he'] at this
    | some e' =>
      simp only [content, he, he', Option.map_some, Option.some.injEq, Prod.mk.injEq] at this
      simp only [this.2]

theorem parents_ok {children : List ℕ} {from_ : ℕ} {u : PUnit}
    (h : ((children.zipIdx from_).forM fun (child, position) => do
      setParent child "validated child" (some (← query fun g => locate g id position)) :
        GraphMethod K PUnit).run g = .ok u g') :
    SameContent g g' ∧ g'.subtreeSize = g.subtreeSize ∧
      (∀ x ∉ children, g'.parentLocation x = g.parentLocation x) ∧
      (children.Nodup → ∀ c i, (c, i) ∈ children.zipIdx from_ →
        ∃ loc, locate g id i = .ok loc ∧ g'.parentLocation c = some loc) := by
  induction children generalizing g from_ with
  | nil =>
    rw [List.zipIdx_nil, forM_nil_ok] at h
    subst h
    exact ⟨⟨rfl, rfl, rfl⟩, rfl, fun _ _ => rfl, fun _ c i hc => by simp at hc⟩
  | cons child rest ih =>
    simp only [List.zipIdx_cons, forM_cons_ok, bind_ok, query_run_ok, setParent, alter_run_ok] at h
    obtain ⟨next, ⟨loc, _, ⟨hloc, rfl⟩, e, he, rfl⟩, hrest⟩ := h
    obtain ⟨same, sizes, away, here⟩ := ih hrest
    have hput := sameContent_put he { e with parent := some loc } rfl rfl
    have hlocate (i : ℕ) := locate_congr hput.content id i
    refine ⟨hput.trans same, ?_, fun x hx => ?_, fun nodup c i hc => ?_⟩
    · rw [sizes]
      change (put g child _).subtreeSize = _
      rw [size_put, ← size_eq he, Function.update_eq_self]
    · rw [List.mem_cons, not_or] at hx
      rw [away x hx.2]
      change (put g child _).parentLocation x = _
      rw [location_put, Function.update_of_ne hx.1]
    · rw [List.nodup_cons] at nodup
      rcases List.mem_cons.mp hc with heq | hc
      · obtain ⟨rfl, rfl⟩ := Prod.mk.inj heq
        refine ⟨loc, hloc, ?_⟩
        rw [away c nodup.1]
        change (put g c _).parentLocation c = _
        rw [location_put, Function.update_self]
      · obtain ⟨loc', hloc', hparent⟩ := here nodup.2 c i hc
        exact ⟨loc', (hlocate i).symm.trans hloc', hparent⟩

structure Settles (g g' : MountedGraph K) (id : ℕ) (node : Node K) : Prop where
  same : SameContent g g'
  size : g'.subtreeSize id =
    some (1 + (node.children.map fun c => (g.subtreeSize c).getD 0).sum)
  sizes_away : ∀ x, x ≠ id → g'.subtreeSize x = g.subtreeSize x
  parents : node.children.Nodup → ∀ c i, (c, i) ∈ node.children.zipIdx →
    ∃ loc, locate g id i = .ok loc ∧ g'.parentLocation c = some loc
  parents_away : ∀ x, x ∉ node.children → g'.parentLocation x = g.parentLocation x

theorem settle_ok {u : Unit} (h : (settle id).run g = .ok u g') :
    ∃ e, g.nodes.get id = some e ∧ Settles g g' id e.node := by
  simp only [settle, bind_ok, get_ok, expect_ok, query_run_ok, alter_run_ok] at h
  obtain ⟨_, _, ⟨rfl, rfl⟩, e, _, ⟨he, rfl⟩, sizes, _, ⟨hsizes, rfl⟩, _, g1, ⟨e', he', hg1⟩, _, g2,
    hparents, hrefresh⟩ := h
  obtain rfl := Option.some.inj (he.symm.trans he')
  obtain rfl : g1 = put g id { e with subtreeSize := 1 + sizes.sum } := hg1
  have hput := sameContent_put he { e with subtreeSize := 1 + sizes.sum } rfl rfl
  obtain ⟨same, hsame, away, here⟩ := parents_ok hparents
  have outlined : outline g' = outline g2 :=
    kept_of_preserves (fun _ => preserves_refresh id) hrefresh
  simp only [outline, Outline.mk.injEq] at outlined
  obtain ⟨hcontent, hsize, hparent, hroot, hissued⟩ := outlined
  refine ⟨e, he, ⟨hput.trans (same.trans ⟨hcontent, hroot, hissued⟩), ?_, fun x hx => ?_,
    fun nodup c i hc => ?_, fun x hx => ?_⟩⟩
  · rw [hsize, hsame, size_put, Function.update_self, sizes_ok hsizes]
  · rw [hsize, hsame, size_put, Function.update_of_ne hx]
  · obtain ⟨loc, hloc, hc⟩ := here nodup c i hc
    exact ⟨loc, (locate_congr hput.content id i).symm.trans hloc, by rw [hparent, hc]⟩
  · rw [hparent, away x hx, location_put, ← location_eq he, Function.update_eq_self]

/-- What settling the nodes of `done`, children first, has done. -/
structure Settled (retained : Finset ℕ) (g g' : MountedGraph K) (done : List ℕ) : Prop where
  same : SameContent g g'
  closed : ∀ d ∈ done, ∀ n, g.node d = some n → ∀ c ∈ n.children, c ∈ retained ∨ c ∈ done
  sizes : ∀ d ∈ done, ∀ n, g.node d = some n →
    g'.subtreeSize d = some (1 + (n.children.map fun c => (g'.subtreeSize c).getD 0).sum)
  sizes_away : ∀ x, x ∉ done → g'.subtreeSize x = g.subtreeSize x
  parents : ∀ d ∈ done, ∀ n, g.node d = some n → ∀ c i, (c, i) ∈ n.children.zipIdx →
    ∃ loc, locate g d i = .ok loc ∧ g'.parentLocation c = some loc
  parents_away : ∀ x, (∀ d ∈ done, ∀ n, g.node d = some n → x ∉ n.children) →
    g'.parentLocation x = g.parentLocation x

/-- A node whose children are settled, and are not the children of a settled node. -/
structure Ready (retained : Finset ℕ) (g : MountedGraph K) (done : List ℕ) (id : ℕ) (n : Node K) :
    Prop where
  unsettled : id ∉ done ∧ id ∉ retained
  node : g.node id = some n
  nodup : n.children.Nodup
  settled : ∀ c ∈ n.children, c ∈ retained ∨ c ∈ done
  apart : ∀ d ∈ done, ∀ m, g.node d = some m → ∀ c ∈ m.children, c ∉ n.children

theorem settled_cons {retained : Finset ℕ} {done : List ℕ} {n : Node K} {g'' : MountedGraph K}
    (s : Settled retained g g' done) (r : Ready retained g done id n)
    (h : Settles g' g'' id n) : Settled retained g g'' (id :: done) := by
  have sum_eq (m : Node K) (hm : ∀ c ∈ m.children, c ∈ retained ∨ c ∈ done) :
      (m.children.map fun c => (g''.subtreeSize c).getD 0) =
        m.children.map fun c => (g'.subtreeSize c).getD 0 := by
    refine List.map_congr_left fun c hc => ?_
    rw [h.sizes_away c]
    rintro rfl
    exact (hm c hc).elim r.unsettled.2 r.unsettled.1
  have here {m : Node K} (hm : g.node id = some m) : m = n := Option.some.inj (hm.symm.trans r.node)
  refine ⟨s.same.trans h.same, ?_, ?_, fun x hx => ?_, ?_, fun x hx => ?_⟩
  · intro d hd m hm c hc
    rcases List.mem_cons.mp hd with rfl | hd
    · rw [here hm] at hc
      exact (r.settled c hc).imp_right (List.mem_cons_of_mem _)
    · exact (s.closed d hd m hm c hc).imp_right (List.mem_cons_of_mem _)
  · intro d hd m hm
    rcases List.mem_cons.mp hd with rfl | hd
    · rw [here hm, h.size, sum_eq n r.settled]
    · rw [h.sizes_away d (fun heq => r.unsettled.1 (heq ▸ hd)), s.sizes d hd m hm,
        sum_eq m (s.closed d hd m hm)]
  · rw [List.mem_cons, not_or] at hx
    rw [h.sizes_away x hx.1, s.sizes_away x hx.2]
  · intro d hd m hm c i hc
    rcases List.mem_cons.mp hd with rfl | hd
    · rw [here hm] at hc
      obtain ⟨loc, hloc, hp⟩ := h.parents r.nodup c i hc
      exact ⟨loc, (locate_congr s.same.content d i).symm.trans hloc, hp⟩
    · obtain ⟨loc, hloc, hp⟩ := s.parents d hd m hm c i hc
      have hmem : c ∈ m.children := (List.mem_zipIdx_iff_getElem?.mp hc) |> List.mem_of_getElem?
      exact ⟨loc, hloc, (h.parents_away c (r.apart d hd m hm c hmem)).trans hp⟩
  · rw [h.parents_away x (hx id (by simp) n r.node)]
    exact s.parents_away x fun d hd => hx d (List.mem_cons_of_mem _ hd)

end Settling

section Fragments

variable {root : ℕ} {nodes : List (Node K)} {retained : Finset ℕ} {validated : ValidatedFragment K}
  {n m : Node K} {id : ℕ}

theorem children_nodup (f : Fragment root nodes retained validated) (hn : n ∈ nodes) :
    n.children.Nodup := (List.nodup_flatMap.mp f.owned).1 n hn

theorem children_apart (f : Fragment root nodes retained validated) (hn : n ∈ nodes)
    (hm : m ∈ nodes) (hne : n.id ≠ m.id) {c : ℕ} (hc : c ∈ n.children) : c ∉ m.children := by
  have : Std.Symm (Function.onFun List.Disjoint fun n : Node K => n.children) :=
    ⟨fun _ _ h => h.symm⟩
  have apart := (List.nodup_flatMap.mp f.owned).2.forall hn hm fun heq => hne (congrArg Node.id heq)
  exact fun hc' => apart hc hc'

theorem below_eq (f : Fragment root nodes retained validated) (hn : n ∈ nodes) :
    below validated.fresh n.id = n.children := by
  rw [below, f.fresh.mpr ⟨hn, rfl⟩]
  rfl

variable [DecidableEq K] {g g' g'' : MountedGraph K}

/-- The loop over the postorder, from any point on. -/
theorem settle_rest (f : Fragment root nodes retained validated)
    (lookup : ∀ n ∈ nodes, g.node n.id = some n) {rest done : List ℕ} {u : PUnit}
    (s : Settled retained g g' done)
    (guarded : Guarded (below validated.fresh) (fun c => c ∈ retained ∨ c ∈ done)
      (rest.map fun id => (id, true)))
    (listed : ∀ d ∈ rest ++ done, d ∈ ids nodes) (nodup : (rest ++ done).Nodup)
    (h : (rest.forM settle).run g' = .ok u g'') :
    Settled retained g g'' (rest.reverse ++ done) := by
  induction rest generalizing g' done with
  | nil =>
    rw [forM_nil_ok] at h
    exact h ▸ s
  | cons id rest ih =>
    rw [forM_cons_ok] at h
    obtain ⟨next, hsettle, hrest⟩ := h
    obtain ⟨n, hn, rfl⟩ := List.mem_map.mp (listed id (by simp))
    rw [List.cons_append, List.nodup_cons, List.mem_append, not_or] at nodup
    obtain ⟨e, he, settles⟩ := settle_ok hsettle
    have hnode : e.node = n := by
      have heq : g'.node n.id = g.node n.id := by
        rw [node_of_content, node_of_content, s.same.content]
      rw [lookup n hn, MountedGraph.node, he] at heq
      exact Option.some.inj heq
    rw [hnode] at settles
    have node_of {d : ℕ} (hd : d ∈ ids nodes) {m : Node K} (hm : g.node d = some m) :
        m ∈ nodes ∧ m.id = d := by
      obtain ⟨p, hp, rfl⟩ := List.mem_map.mp hd
      obtain rfl : m = p := Option.some.inj (hm.symm.trans (lookup p hp))
      exact ⟨hp, rfl⟩
    have ready : Ready retained g done n.id n := by
      refine ⟨⟨nodup.1.2, f.apart _ (List.mem_map_of_mem hn)⟩, lookup n hn, children_nodup f hn, ?_, ?_⟩
      · exact below_eq f hn ▸ guarded.1 rfl
      · intro d hd m hm c hc
        obtain ⟨hmem, rfl⟩ := node_of (listed d (by simp [hd])) hm
        exact children_apart f hmem hn (fun heq => nodup.1.2 (heq ▸ hd)) hc
    have hmono : Guarded (below validated.fresh) (fun c => c ∈ retained ∨ c ∈ n.id :: done)
        (rest.map fun id => (id, true)) := by
      refine guarded_mono (fun c hc => ?_) guarded.2
      rw [List.mem_cons]
      tauto
    have := ih (settled_cons s ready settles) hmono (fun d hd => listed d (by simp at hd ⊢; tauto))
      (List.nodup_middle.mpr (List.nodup_cons.mpr ⟨by simpa using nodup.1, nodup.2⟩)) hrest
    rwa [List.reverse_cons, List.append_assoc]

theorem settle_all (f : Fragment root nodes retained validated)
    (lookup : ∀ n ∈ nodes, g.node n.id = some n) {u : PUnit}
    (h : (validated.postorder.forM settle).run g = .ok u g') :
    Settled retained g g' (ids nodes) := by
  have start : Settled retained g g [] :=
    ⟨⟨rfl, rfl, rfl⟩, by simp, by simp, fun _ _ => rfl, by simp, fun _ _ => rfl⟩
  have hall := settle_rest f lookup start (guarded_mono (fun _ => .inl) f.children_first)
    (fun d hd => f.mem_postorder.mp (by simpa using hd)) (by simpa using f.postorder_nodup) h
  have mem (x : ℕ) : x ∈ validated.postorder.reverse ++ [] ↔ x ∈ ids nodes := by
    simp [f.mem_postorder]
  refine ⟨hall.same, fun d hd n hn c hc => ?_, fun d hd => hall.sizes d ((mem d).mpr hd),
    fun x hx => hall.sizes_away x fun h => hx ((mem x).mp h),
    fun d hd => hall.parents d ((mem d).mpr hd),
    fun x hx => hall.parents_away x fun d hd => hx d ((mem d).mp hd)⟩
  exact (hall.closed d ((mem d).mpr hd) n hn c hc).imp_right (mem c).mp

end Fragments

section Inserting

variable {root : ℕ} {nodes : List (Node K)} {retained : Finset ℕ} {validated : ValidatedFragment K}
  {g g' : MountedGraph K}

/-- The entry a staged node starts with. -/
def fresh (node : Node K) : MountedNode K := ⟨node, none, 1, .of node 0 0, none⟩

/-- The part of a graph that no index lookup touches. -/
def frame (g : MountedGraph K) : FiniteMap ℕ (MountedNode K) × Option ℕ × ℕ :=
  (g.nodes, g.root, g.maxSeenNodeId)

theorem index_ok {node : Node K} {u : Unit} (h : (indexNode validated node).run g = .ok u g') :
    frame g' = (g.nodes, g.root, max g.maxSeenNodeId node.id) := by
  rw [indexNode, bind_ok] at h
  obtain ⟨_, t, ht, hrest⟩ := h
  rw [modify_ok] at ht
  have kept : frame g' = frame t := by
    refine kept_of_preserves (fun c => ?_) hrest
    split
    · exact preserves_modify fun _ h => h
    · exact preserves_bind (preserves_expect _ _) fun _ => preserves_modify fun _ h => h
    · exact preserves_modify fun _ h => h
    · exact preserves_modify fun _ h => h
    · split
      · exact preserves_modify fun _ h => h
      · exact preserves_pure ()
    · exact preserves_pure ()
  rw [kept, ht, frame]

theorem mount_ok {node : Node K} {u : Unit} (h : (mountNode validated node).run g = .ok u g') :
    frame g' = (g.nodes.set node.id (fresh node), g.root, max g.maxSeenNodeId node.id) := by
  rw [mountNode, bind_ok] at h
  obtain ⟨_, t, ht, hset⟩ := h
  rw [modify_ok] at hset
  have := index_ok ht
  simp only [frame, Prod.mk.injEq] at this ⊢
  rw [hset]
  exact ⟨congrArg (FiniteMap.set · node.id (fresh node)) this.1, this.2⟩

structure Mounts (g g' : MountedGraph K) (nodes : List (Node K)) : Prop where
  root : g'.root = g.root
  issued : g.maxSeenNodeId ≤ g'.maxSeenNodeId ∧ ∀ n ∈ nodes, n.id ≤ g'.maxSeenNodeId
  fresh : ∀ n ∈ nodes, g'.nodes.get n.id = some (fresh n)
  away : ∀ x, x ∉ ids nodes → g'.nodes.get x = g.nodes.get x

theorem mount_all {u : PUnit} (distinct : (ids nodes).Nodup)
    (h : (nodes.forM (mountNode validated)).run g = .ok u g') : Mounts g g' nodes := by
  induction nodes generalizing g with
  | nil =>
    rw [forM_nil_ok] at h
    subst h
    exact ⟨rfl, ⟨le_rfl, by simp⟩, by simp, fun _ _ => rfl⟩
  | cons n rest ih =>
    rw [forM_cons_ok] at h
    obtain ⟨t, hmount, hrest⟩ := h
    rw [ids, List.map_cons, List.nodup_cons] at distinct
    have mounts := ih distinct.2 hrest
    have hframe := mount_ok hmount
    simp only [frame, Prod.mk.injEq] at hframe
    obtain ⟨hnodes, hroot, hissued⟩ := hframe
    have hle := mounts.issued.1
    rw [hissued] at hle
    refine ⟨mounts.root.trans hroot, ⟨le_of_max_le_left hle, fun m hm => ?_⟩, fun m hm => ?_,
      fun x hx => ?_⟩
    · rcases List.mem_cons.mp hm with rfl | hm
      · exact le_of_max_le_right hle
      · exact mounts.issued.2 m hm
    · rcases List.mem_cons.mp hm with rfl | hm
      · rw [mounts.away _ distinct.1, hnodes, FiniteMap.get_set_self]
      · exact mounts.fresh m hm
    · rw [ids, List.map_cons, List.mem_cons, not_or] at hx
      rw [mounts.away x hx.2, hnodes, FiniteMap.get_set_ne _ _ hx.1]

variable [DecidableEq K]

/-- The order a staged node is seeded with. -/
def Seeded (lookup : ℕ → Option (Node K)) (node : Node K) (order : Option (KeyedChildOrder K)) :
    Prop :=
  match node.kind with
  | .keyedColumn _ revision keys => ∃ entries o, order = some o ∧ fromSeed revision entries = .ok o ∧
      entries.map (fun e => (e.1, e.2.1)) = keys.zip node.children ∧
      ∀ e ∈ entries, ∃ n, lookup e.2.1 = some n ∧ n.kind = .boundary e.2.2
  | _ => order = none

omit [DecidableEq K] in
theorem seed_entries {seeds : List (K × ℕ)} {entries : List (K × ℕ × ℕ)}
    (h : seeds.mapM (seedEntry g) = .ok entries) : entries.map (fun e => (e.1, e.2.1)) = seeds ∧
      ∀ e ∈ entries, ∃ n, g.node e.2.1 = some n ∧ n.kind = .boundary e.2.2 := by
  induction seeds generalizing entries with
  | nil =>
    cases h
    simp
  | cons seed seeds ih =>
    simp only [List.mapM_cons, except_bind_ok] at h
    obtain ⟨entry, hentry, rest, hrest, heq⟩ := h
    obtain rfl : entry :: rest = entries := Except.ok.inj heq
    obtain ⟨hmap, hbound⟩ := ih hrest
    unfold seedEntry at hentry
    split at hentry
    · cases hentry
    · rename_i instanceId hkind
      cases hentry
      obtain ⟨n, hn, hb⟩ := Option.map_eq_some_iff.mp hkind
      refine ⟨by rw [List.map_cons, hmap], fun e he => ?_⟩
      rcases List.mem_cons.mp he with rfl | he
      · exact ⟨n, hn, hb⟩
      · exact hbound e he
    · cases hentry

theorem seed_ok {node : Node K} {e : MountedNode K} {u : Unit} (he : g.nodes.get node.id = some e)
    (hk : e.keyedChildren = none) (h : (seedNode node).run g = .ok u g') :
    ∃ order, Seeded g.node node order ∧
      frame g' = (g.nodes.set node.id { e with keyedChildren := order }, g.root, g.maxSeenNodeId) := by
  unfold seedNode at h
  split at h
  · rename_i revision keys hkind
    simp only [bind_ok, query_run_ok, expect_ok, alter_run_ok] at h
    obtain ⟨entries, _, ⟨hentries, rfl⟩, o, _, ⟨ho, rfl⟩, e', he', rfl⟩ := h
    obtain rfl := Option.some.inj (he.symm.trans he')
    obtain ⟨hmap, hbound⟩ := seed_entries hentries
    refine ⟨some o, ?_, rfl⟩
    simp only [Seeded, hkind]
    refine ⟨entries, o, rfl, ?_, hmap, hbound⟩
    cases hseed : fromSeed revision entries with
    | ok o' => simpa [hseed, Except.toOption] using ho
    | error e => simp [hseed, Except.toOption] at ho
  · rename_i hkind
    obtain ⟨-, rfl⟩ := pure_ok.mp h
    refine ⟨none, ?_, ?_⟩
    · unfold Seeded
      split
      · exact absurd ‹_› (hkind _ _ _)
      · rfl
    · rw [← hk, frame]
      congr 1
      ext1 x
      rw [FiniteMap.get_set]
      split
      · subst x
        exact he.symm ▸ rfl
      · rfl

structure Seeds (g g' : MountedGraph K) (nodes : List (Node K)) : Prop where
  root : g'.root = g.root
  issued : g'.maxSeenNodeId = g.maxSeenNodeId
  node : g'.node = g.node
  seeded : ∀ n ∈ nodes, ∃ order, Seeded g.node n order ∧
    g'.nodes.get n.id = some { fresh n with keyedChildren := order }
  away : ∀ x, x ∉ ids nodes → g'.nodes.get x = g.nodes.get x

theorem seed_all {u : PUnit} (distinct : (ids nodes).Nodup)
    (present : ∀ n ∈ nodes, g.nodes.get n.id = some (fresh n))
    (h : (nodes.forM seedNode).run g = .ok u g') : Seeds g g' nodes := by
  induction nodes generalizing g with
  | nil =>
    rw [forM_nil_ok] at h
    subst h
    exact ⟨rfl, rfl, rfl, by simp, fun _ _ => rfl⟩
  | cons n rest ih =>
    rw [forM_cons_ok] at h
    obtain ⟨t, hseed, hrest⟩ := h
    rw [ids, List.map_cons, List.nodup_cons] at distinct
    have hn := present n (by simp)
    obtain ⟨order, seeded, hframe⟩ := seed_ok hn rfl hseed
    simp only [frame, Prod.mk.injEq] at hframe
    obtain ⟨hnodes, hroot, hissued⟩ := hframe
    have hne {m : Node K} (hm : m ∈ rest) : m.id ≠ n.id := fun heq =>
      distinct.1 (heq ▸ List.mem_map_of_mem hm)
    have hnode : t.node = g.node := by
      funext x
      rw [MountedGraph.node, MountedGraph.node, hnodes, FiniteMap.get_set]
      split
      · subst x
        rw [hn]
        rfl
      · rfl
    have seeds := ih distinct.2 (fun m hm => by
      rw [hnodes, FiniteMap.get_set_ne _ _ (hne hm)]
      exact present m (List.mem_cons_of_mem _ hm)) hrest
    refine ⟨seeds.root.trans hroot, seeds.issued.trans hissued, seeds.node.trans hnode,
      fun m hm => ?_, fun x hx => ?_⟩
    · rcases List.mem_cons.mp hm with rfl | hm
      · exact ⟨order, seeded, by rw [seeds.away _ distinct.1, hnodes, FiniteMap.get_set_self]⟩
      · rw [← hnode]
        exact seeds.seeded m hm
    · rw [ids, List.map_cons, List.mem_cons, not_or] at hx
      rw [seeds.away x hx.2, hnodes, FiniteMap.get_set_ne _ _ hx.1]

structure Inserted (g g' : MountedGraph K) (nodes : List (Node K)) : Prop where
  root : g'.root = g.root
  issued : g.maxSeenNodeId ≤ g'.maxSeenNodeId ∧ ∀ n ∈ nodes, n.id ≤ g'.maxSeenNodeId
  fresh : ∀ n ∈ nodes, ∃ e, g'.nodes.get n.id = some e ∧ e.node = n ∧
    Seeded g'.node n e.keyedChildren ∧ (locations n.id e).map Prod.fst = n.children ∧
    (∀ c loc, (c, loc) ∈ locations n.id e → g'.parentLocation c = some loc) ∧
    e.subtreeSize = 1 + (forest g').total (locations n.id e) ∧
    (n.id ∉ childIds nodes → e.parent = none)
  content : ∀ x, x ∉ ids nodes → content g' x = content g x
  sizes : ∀ x, x ∉ ids nodes → g'.subtreeSize x = g.subtreeSize x
  parents : ∀ x, x ∉ ids nodes → x ∉ childIds nodes → g'.parentLocation x = g.parentLocation x

theorem seeded_represents {lookup : ℕ → Option (Node K)} {n : Node K} {o : KeyedChildOrder K}
    (h : Seeded lookup n (some o)) : ∃ (keys : List K) (l : KeyedList K (ℕ × ℕ)), Represents o l ∧
      l.entries.map (fun e => (e.1, e.2.1)) = keys.zip n.children ∧
      ∀ e ∈ l.entries, ∃ n, lookup e.2.1 = some n ∧ n.kind = .boundary e.2.2 := by
  unfold Seeded at h
  split at h
  · obtain ⟨entries, o', ho, hseed, hmap, hbound⟩ := h
    obtain rfl := Option.some.inj ho
    obtain ⟨l, rfl, hl⟩ := KeyedOrderRuns.seed_represents hseed
    exact ⟨_, l, hl, hmap, hbound⟩
  · cases h

/-- A node that could tell each of its children where it is lists just these. -/
theorem located_children {n : Node K} {e : MountedNode K}
    (he : g.nodes.get n.id = some e) (hn : e.node = n)
    (seeded : Seeded g.node n e.keyedChildren)
    (located : ∀ c i, (c, i) ∈ n.children.zipIdx →
      ∃ loc, locate g n.id i = .ok loc ∧ g'.parentLocation c = some loc) :
    (locations n.id e).map Prod.fst = n.children ∧
      ∀ c loc, (c, loc) ∈ locations n.id e → g'.parentLocation c = some loc := by
  cases ho : e.keyedChildren with
  | none =>
    refine ⟨by rw [locations_fst, ho, hn], fun c loc hc => ?_⟩
    simp only [locations, ho, hn] at hc
    obtain ⟨⟨c', i⟩, hmem, heq⟩ := List.mem_map.mp hc
    obtain ⟨rfl, rfl⟩ := Prod.mk.inj heq
    obtain ⟨loc, hloc, hp⟩ := located c' i hmem
    simp only [locate, he, ho] at hloc
    rw [hp, ← Except.ok.inj hloc]
  | some o =>
    rw [ho] at seeded
    obtain ⟨keys, l, hl, hmap, -⟩ := seeded_represents seeded
    obtain ⟨cs, hcs, hitems⟩ := forward_eq hl
    have place {c i : ℕ} (hc : (c, i) ∈ n.children.zipIdx) : ∃ entry, l.entries[i]? = some entry ∧
        g'.parentLocation c = some (.keyed n.id entry.1 entry.2.2) := by
      obtain ⟨loc, hloc, hp⟩ := located c i hc
      simp only [locate, he, ho, hcs, Except.mapError, except_bind_ok] at hloc
      obtain ⟨children, hchildren, hat⟩ := hloc
      obtain rfl : cs = children := Except.ok.inj hchildren
      split at hat
      · rename_i key child hget
        refine ⟨item (key, child), ?_, ?_⟩
        · rw [← hitems, List.getElem?_map, hget]
          rfl
        · rw [hp, ← Except.ok.inj hat]
          rfl
      · cases hat
    -- every child was found, so no key is missing
    have hlen : n.children.length ≤ l.entries.length := by
      rcases Nat.eq_zero_or_pos n.children.length with hzero | hpos
      · omega
      · obtain ⟨entry, hentry, -⟩ := place (List.mk_mem_zipIdx_iff_getElem?.mpr
          (List.getElem?_eq_getElem (Nat.sub_one_lt_of_lt hpos)))
        have := (List.getElem?_eq_some_iff.mp hentry).1
        omega
    have hroots : l.entries.map (fun entry => entry.2.1) = n.children := by
      have hzip := congrArg List.length hmap
      rw [List.length_map, List.length_zip] at hzip
      have := congrArg (List.map Prod.snd) hmap
      rwa [List.map_map, List.map_snd_zip (by omega)] at this
    refine ⟨by simp only [locations_fst, ho, entries_of hl, hroots], fun c loc hc => ?_⟩
    simp only [locations, ho, entries_of hl] at hc
    obtain ⟨entry, hmem, heq⟩ := List.mem_map.mp hc
    obtain ⟨rfl, rfl⟩ := Prod.mk.inj heq
    obtain ⟨i, hi⟩ := List.mem_iff_getElem?.mp hmem
    have hchild : n.children[i]? = some entry.2.1 := by
      rw [← hroots, List.getElem?_map, hi]
      rfl
    obtain ⟨entry', hi', hp⟩ := place (List.mk_mem_zipIdx_iff_getElem?.mpr hchild)
    obtain rfl := Option.some.inj (hi.symm.trans hi')
    exact hp

theorem insert_nodes (f : Fragment root nodes retained validated) {u : PUnit}
    (h : (insertNodes nodes validated).run g = .ok u g') : Inserted g g' nodes := by
  simp only [insertNodes, bind_ok] at h
  obtain ⟨_, g1, hmount, _, g2, hseed, hsettle⟩ := h
  have mounts := mount_all f.distinct hmount
  have seeds := seed_all f.distinct mounts.fresh hseed
  have lookup : ∀ n ∈ nodes, g2.node n.id = some n := fun n hn => by
    obtain ⟨order, -, he⟩ := seeds.seeded n hn
    rw [MountedGraph.node, he]
    rfl
  have settled := settle_all f lookup hsettle
  have start (x : ℕ) (hx : x ∉ ids nodes) : g2.nodes.get x = g.nodes.get x :=
    (seeds.away x hx).trans (mounts.away x hx)
  have hnode : g'.node = g2.node := by
    funext x
    rw [node_of_content, node_of_content, settled.same.content]
  refine ⟨settled.same.root.trans (seeds.root.trans mounts.root), ?_, fun n hn => ?_, fun x hx => ?_,
    fun x hx => ?_, fun x hx hc => ?_⟩
  · rw [settled.same.issued, seeds.issued]
    exact mounts.issued
  · obtain ⟨order, seeded, he⟩ := seeds.seeded n hn
    have hid := List.mem_map_of_mem (f := (·.id)) hn
    cases he' : g'.nodes.get n.id with
    | none => simpa [content, he, he'] using congrFun settled.same.content n.id
    | some e =>
      have hcontent := congrFun settled.same.content n.id
      simp only [content, he, he', Option.map_some, Option.some.injEq, Prod.mk.injEq, fresh]
        at hcontent
      obtain ⟨hn', hk⟩ := hcontent
      have hsame : locations n.id e = locations n.id { fresh n with keyedChildren := order } := by
        simp only [locations, hn', hk, fresh]
      obtain ⟨hfst, hplaced⟩ := located_children he rfl (seeds.node ▸ seeded)
        (settled.parents n.id hid n (lookup n hn))
      refine ⟨e, rfl, hn', ?_, hsame ▸ hfst, hsame ▸ hplaced, ?_, fun hfree => ?_⟩
      · rw [hk, hnode, seeds.node]
        exact seeded
      · have hsize := settled.sizes n.id hid n (lookup n hn)
        rw [size_eq he'] at hsize
        rw [Option.some.inj hsize, Forest.total, hsame, ← hfst, List.map_map]
        rfl
      · have hparent := settled.parents_away n.id fun d hd m hm hc => by
          obtain ⟨p, hp, rfl⟩ := List.mem_map.mp hd
          obtain rfl : m = p := Option.some.inj (hm.symm.trans (lookup p hp))
          exact hfree (mem_childIds.mpr ⟨m, hp, hc⟩)
        rw [location_eq he', location_eq he] at hparent
        exact hparent
  · rw [settled.same.content, content, content, start x hx]
  · rw [settled.sizes_away x hx, MountedGraph.subtreeSize, MountedGraph.subtreeSize, start x hx]
  · rw [settled.parents_away x, MountedGraph.parentLocation, MountedGraph.parentLocation, start x hx]
    intro d hd m hm hmem
    obtain ⟨p, hp, rfl⟩ := List.mem_map.mp hd
    obtain rfl : m = p := Option.some.inj (hm.symm.trans (lookup p hp))
    exact hc (mem_childIds.mpr ⟨m, hp, hmem⟩)

end Inserting

end GraphMounting
