import RocGui.PlaceCalls
import RocGui.RecentLists

/-! What a reopened place is. An identity is taken from a path, and a place is opened by its
path again: both agree with the handle while the path names the same thing. -/
namespace ReopenedPlaces

open FileTrees Grants TextFormats RecentFormats RecentStores ThreadSystems Transitions PlaceCalls
open RecentEntries (EntryKind Unavailable)

/-- A handle from a reopened entry names what the handle that was remembered as it named. -/
def ReopensChosen (s : PlaceState) : Prop :=
  ∀ t entry owner, s.calls t = .handed entry owner →
    (∃ known, (entry, known) ∈ s.shared.history) ∧
      ∀ known, (entry, known) ∈ s.shared.history → owner = known ∧ owner.isSome

/-- What the place of an entry names, as its check sees it. -/
def SamePlace (entry : Entry) (before after : FileSystem) : Prop :=
  match entry.kind with
  | .directory => after.stat entry.path = before.stat entry.path
  | .file => after.lstat entry.path = before.lstat entry.path

/-- A change leaves what a call has checked: a place that is still to be opened, and then the
file of the opened folder. -/
def Kept (before after : FileSystem) : Call → Prop
  | .reading entry | .reopening entry => SamePlace entry before after
  | .canonicalizing (.reopenFile entry) _ | .typing (.reopenFile entry) _
  | .parenting (.reopenFile entry) _ => SamePlace entry before after
  | .handing _ held => named after held = named before held
  | _ => True

/-- The place noted for a handle names what the handle does when it is remembered, and nothing
moves what a reopen has checked before its handle is made. -/
def Steady (s : PlaceState) : PlaceEvent → Prop
  | .task t _ => match s.calls t with
    | .remembering _ held _ place _ =>
      ∀ identity, s.shared.fs.stat place = some identity → named s.shared.fs held = some identity
    | _ => True
  | .change fs => ∀ t, Kept s.shared.fs fs (s.calls t)
  | .restart _ => True

def Recorded (s : Places) (entry : Entry) : Prop := ∃ known, (entry, known) ∈ s.history

/-- The place of an entry names what was remembered. -/
def Stands (fs : FileSystem) (entry : Entry) : Prop :=
  match entry.kind with
  | .directory => fs.stat entry.path = some entry.identity
  | .file => fs.lstat entry.path = some (.file, entry.identity)

/-- What a file is looked for in a reopen, was remembered and still stands. -/
def Sought (s : Places) : Purpose → Prop
  | .reopenFile entry => Recorded s entry ∧ entry.kind = .file ∧ Stands s.fs entry
  | .pickFolder _ | .pickFile _ => True

def Fits (s : Places) : Call → Prop
  | .committing _ _ _ identity _ owner => owner = some identity
  | .checking entry => Recorded s entry
  | .reading entry => Recorded s entry ∧ Stands s.fs entry
  | .reopening entry => Recorded s entry ∧ entry.kind = .directory ∧ Stands s.fs entry
  | .canonicalizing purpose _ | .typing purpose _ | .parenting purpose _ => Sought s purpose
  | .handing entry held => Recorded s entry ∧ named s.fs held = some entry.identity
  | .handed entry owner => Recorded s entry ∧ owner = some entry.identity
  | _ => True

/-- Every list there is or was holds entries that were remembered, with the right identity. -/
structure Chosen (s : Places) : Prop where
  right : ∀ entry known, (entry, known) ∈ s.history → known = some entry.identity
  listed : ∀ entry ∈ s.store.entries, Recorded s entry
  saved : ∀ list ∈ s.saved, ∀ entry ∈ list, Recorded s entry

structure Keeps (s : PlaceState) : Prop where
  chosen : Chosen s.shared
  fits : ∀ t, Fits s.shared (s.calls t)

section Sections

variable {s s' : Places} {call next : Call} {action : Action} {entry : Entry}

/-- A section leaves the file system, and adds to the history. -/
structure Follows (s s' : Places) : Prop where
  fs : s'.fs = s.fs
  history : ∀ record ∈ s.history, record ∈ s'.history

theorem recorded_follows (follows : Follows s s') (h : Recorded s entry) : Recorded s' entry := by
  obtain ⟨known, hknown⟩ := h
  exact ⟨known, follows.history _ hknown⟩

theorem fits_follows (follows : Follows s s') (h : Fits s call) : Fits s' call := by
  have recorded {entry : Entry} : Recorded s entry → Recorded s' entry := recorded_follows follows
  cases call with
  | canonicalizing purpose path | typing purpose path | parenting purpose path =>
    cases purpose with
    | reopenFile entry =>
      obtain ⟨hrecorded, hkind, hstands⟩ := h
      exact ⟨recorded hrecorded, hkind, follows.fs ▸ hstands⟩
    | pickFolder | pickFile => trivial
  | committing => exact h
  | checking entry => exact recorded h
  | reading entry => exact ⟨recorded h.1, follows.fs ▸ h.2⟩
  | reopening entry => exact ⟨recorded h.1, h.2.1, follows.fs ▸ h.2.2⟩
  | handing entry held => exact ⟨recorded h.1, follows.fs ▸ h.2⟩
  | handed entry owner => exact ⟨recorded h.1, h.2⟩
  | idle | opening | resolving | granting | remembering | refused | releasing => trivial

structure Moved (s : Places) (next : Call) (s' : Places) : Prop where
  chosen : Chosen s'
  fits : Fits s' next
  follows : Follows s s'

theorem moved_rest (chosen : Chosen s) (fits : Fits s next) : Moved s next s :=
  ⟨chosen, fits, rfl, fun _ h => h⟩

theorem moved_lists (chosen : Chosen s) (hfs : s'.fs = s.fs) (hhistory : s'.history = s.history)
    (hlisted : ∀ e ∈ s'.store.entries, e ∈ s.store.entries)
    (hsaved : ∀ list ∈ s'.saved, list ∈ s.saved ∨ ∀ e ∈ list, e ∈ s.store.entries)
    (fits : Fits s' next) : Moved s next s' := by
  have follows : Follows s s' := ⟨hfs, fun record h => hhistory ▸ h⟩
  refine ⟨⟨fun e known h => ?_, fun e he => ?_, fun list hlist e he => ?_⟩, fits, follows⟩
  · rw [hhistory] at h
    exact chosen.right e known h
  · exact recorded_follows follows (chosen.listed e (hlisted e he))
  · rcases hsaved list hlist with hold | hentries
    · exact recorded_follows follows (chosen.saved list hold e he)
    · exact recorded_follows follows (chosen.listed e (hentries e he))

theorem moved_refuseRemember (chosen : Chosen s) (reason : Unavailable) :
    Moved s (refuseRemember s reason).1 (refuseRemember s reason).2 := by
  refine moved_lists chosen rfl rfl (fun e he => ?_) (fun list hlist => .inl hlist) trivial
  exact he

theorem moved_refuseReopen (chosen : Chosen s) (reason : Unavailable) :
    Moved s (refuseReopen s reason).1 (refuseReopen s reason).2 :=
  moved_lists chosen rfl rfl (fun _ he => he) (fun _ hlist => .inl hlist) trivial

theorem moved_startRemember {id : GrantId} {held : Held} (chosen : Chosen s)
    (answer : Except Refusal Origin) :
    Moved s (startRemember s id held answer).1 (startRemember s id held answer).2 := by
  cases answer with
  | error refusal => exact moved_refuseRemember chosen _
  | ok origin =>
    rw [startRemember]
    cases s.store.sources.get id with
    | none => exact moved_refuseRemember chosen _
    | some source => exact moved_rest chosen trivial

theorem place_keeps (store : Store) (kind : EntryKind) (path : Path) (identity : Identity)
    (origin : Origin) : (place store kind path identity origin).1.identity = identity ∧
      ∀ e ∈ (place store kind path identity origin).2.1, e ∈ store.entries := by
  rcases RecentLists.place_cases store kind path identity origin with
    ⟨before, entry, after, hentries, -, hplace⟩ | ⟨-, hplace⟩
  · rw [hplace]
    refine ⟨rfl, fun e he => ?_⟩
    rw [hentries]
    exact (List.mem_append.mp he).elim (fun h => List.mem_append_left _ h)
      fun h => List.mem_append_right _ (List.mem_cons_of_mem _ h)
  · rw [hplace]
    exact ⟨rfl, fun _ he => he⟩

theorem moved_commit {id : GrantId} {kind : EntryKind} {path : Path} {identity : Identity}
    {origin : Origin} {known : Option Identity} (chosen : Chosen s) (hknown : known = some identity) :
    Moved s .idle (commitPlace s id kind path identity origin known) := by
  obtain ⟨hidentity, hothers⟩ := place_keeps s.store kind path identity origin
  generalize hplace : place s.store kind path identity origin = placed at hidentity hothers
  have hcommit : commitPlace s id kind path identity origin known = { s with
      store := countRemember (commitRemember s.store id kind path identity origin).2 (.ok ())
      saved := saveChange s (commitRemember s.store id kind path identity origin).1
      history := (placed.1, known) :: s.history } := by rw [commitPlace, hplace]
  have hentries : (commitRemember s.store id kind path identity origin).2.entries =
      (placed.1 :: placed.2.1).take RecentEntries.maxEntries := by rw [commitRemember, hplace]
  have hchange : (commitRemember s.store id kind path identity origin).1 =
      s.store.backing.map fun backing =>
        (backing, (placed.1 :: placed.2.1).take RecentEntries.maxEntries) := by
    rw [commitRemember, hplace]
  rw [hcommit]
  have follows : Follows s { s with
      store := countRemember (commitRemember s.store id kind path identity origin).2 (.ok ())
      saved := saveChange s (commitRemember s.store id kind path identity origin).1
      history := (placed.1, known) :: s.history } := ⟨rfl, fun _ h => List.mem_cons_of_mem _ h⟩
  -- the entry that was placed is new in the history, the others were listed
  have listed {e : Entry} (he : e ∈ (placed.1 :: placed.2.1).take RecentEntries.maxEntries) :
      ∃ owner, (e, owner) ∈ (placed.1, known) :: s.history := by
    rcases List.mem_cons.mp (List.mem_of_mem_take he) with rfl | he
    · exact ⟨known, List.mem_cons_self⟩
    · obtain ⟨owner, howner⟩ := chosen.listed e (hothers e he)
      exact ⟨owner, List.mem_cons_of_mem _ howner⟩
  refine ⟨⟨fun e owner he => ?_, fun e he => ?_, fun list hlist e he => ?_⟩, trivial, follows⟩
  · rcases List.mem_cons.mp he with heq | he
    · obtain ⟨rfl, rfl⟩ := Prod.mk.inj heq
      rw [hknown, hidentity]
    · exact chosen.right e owner he
  · exact listed (hentries ▸ he)
  · rw [hchange] at hlist
    change list ∈ saveChange s _ at hlist
    cases hbacking : s.store.backing with
    | none =>
      rw [hbacking] at hlist
      exact recorded_follows follows (chosen.saved list hlist e he)
    | some backing =>
      rw [hbacking] at hlist
      rcases List.mem_cons.mp hlist with rfl | hold
      · exact listed he
      · exact recorded_follows follows (chosen.saved list hold e he)

theorem moved_check (chosen : Chosen s) (h : Recorded s entry) :
    Moved s (check s entry).1 (check s entry).2 := by
  unfold check
  cases hlook : s.fs.lstat entry.path with
  | none => exact moved_refuseReopen chosen _
  | some found =>
    obtain ⟨type, identity⟩ := found
    dsimp only
    by_cases hdiffers : type ≠ kindType entry.kind ∨ identity ≠ entry.identity
    · rw [if_pos hdiffers]
      exact moved_refuseReopen chosen _
    · rw [if_neg hdiffers]
      rw [not_or, not_not, not_not] at hdiffers
      obtain ⟨htype, hidentity⟩ := hdiffers
      refine moved_rest chosen ⟨h, ?_⟩
      unfold Stands
      cases hkind : entry.kind with
      | file =>
        rw [hlook, htype, hidentity, hkind]
        rfl
      | directory =>
        obtain ⟨i, hi, heq⟩ := Option.map_eq_some_iff.mp hlook
        obtain ⟨hitype, rfl⟩ := Prod.mk.inj heq
        rw [← hidentity]
        refine Tree.walk_of_look hi ?_
        rw [hitype, htype, hkind]
        exact nofun

theorem named_of_stands {path : Path} {dir : Identity} {name : Bytes} {fs : FileSystem}
    (hkind : entry.kind = .file) (stands : Stands fs entry) (hsame : SamePath path entry.path)
    (hname : fileName path = some name) (hdir : openParent fs path = some dir) :
    named fs (.file dir name) = some entry.identity := by
  have hlook : fs.lstat entry.path = some (.file, entry.identity) := by
    unfold Stands at stands
    rwa [hkind] at stands
  obtain ⟨i, hi, heq⟩ := Option.map_eq_some_iff.mp hlook
  obtain ⟨htype, rfl⟩ := Prod.mk.inj heq
  have hlast : (components path).2.getLast? = some name := by
    unfold fileName at hname
    cases hlast : (components path).2.getLast? with
    | none =>
      rw [hlast] at hname
      cases hname
    | some last =>
      rw [hlast] at hname
      dsimp only at hname
      split at hname
      · exact hname
      · cases hname
  have hparent : fs.tree.walk (fs.start path) (components path).2.dropLast = some dir := by
    unfold openParent at hdir
    cases hwalk : fs.tree.walk (fs.start path) (components path).2.dropLast with
    | none =>
      rw [hwalk] at hdir
      cases hdir
    | some found =>
      rw [hwalk] at hdir
      dsimp only at hdir
      split at hdir
      · exact hdir
      · cases hdir
  have hplace : fs.tree.look (fs.start path) (components path).2 = some entry.identity := by
    rw [FileSystem.start, hsame]
    exact hi
  rw [Tree.look, hlast] at hplace
  dsimp only at hplace
  rw [hparent, Option.bind_some] at hplace
  rw [named, hplace, Option.filter_some, if_pos (decide_eq_true htype)]

section Locating

variable {purpose : Purpose} {path : Path}

theorem fits_refusedPurpose {error : IoError} : Fits s (refusedPurpose purpose error) := by
  cases purpose <;> trivial

theorem fits_resolved (h : Sought s purpose) : Fits s (resolved purpose path) := by
  cases purpose with
  | pickFolder => trivial
  | pickFile | reopenFile => exact h

theorem fits_located {dir : Identity} {name : Bytes} (h : Sought s purpose)
    (hname : fileName path = some name) (hdir : openParent s.fs path = some dir) :
    Fits s (located purpose path dir name) := by
  cases purpose with
  | pickFolder | pickFile => trivial
  | reopenFile entry =>
    obtain ⟨hrecorded, hkind, hstands⟩ := h
    rw [located]
    by_cases hsame : SamePath path entry.path
    · rw [if_pos hsame]
      exact ⟨hrecorded, named_of_stands hkind hstands hsame hname hdir⟩
    · rw [if_neg hsame]
      trivial

end Locating

theorem moved_hand {held : Held} (chosen : Chosen s) (h : Fits s (.handing entry held)) :
    Moved s (hand s entry held).1 (hand s entry held).2 :=
  moved_lists chosen rfl rfl (fun _ he => he) (fun _ hlist => .inl hlist) ⟨h.1, h.2⟩

theorem moved_forget {key : UInt64} (chosen : Chosen s) : Moved s .idle { s with
    store := (forget s.store key).2, saved := saveChange s (forget s.store key).1.2 } := by
  obtain ⟨hsublist, -, -, -⟩ := RecentLists.forget_sublist s.store key
  have hentries : ∀ e ∈ (forget s.store key).2.entries, e ∈ s.store.entries :=
    fun e he => hsublist.subset he
  refine moved_lists chosen rfl rfl hentries (fun list hlist => ?_) trivial
  have hchange : (forget s.store key).1.2 = none ∨
      ∃ backing, (forget s.store key).1.2 = some (backing, (forget s.store key).2.entries) := by
    unfold forget
    dsimp only
    split
    · exact .inl rfl
    · cases s.store.backing with
      | none => exact .inl rfl
      | some backing => exact .inr ⟨backing, rfl⟩
  change list ∈ saveChange s (forget s.store key).1.2 at hlist
  rcases hchange with hnone | ⟨backing, hsome⟩
  · rw [hnone] at hlist
    exact .inl hlist
  · rw [hsome] at hlist
    rcases List.mem_cons.mp hlist with rfl | hold
    · exact .inr hentries
    · exact .inl hold

theorem advance_moved (chosen : Chosen s) (fits : Fits s call)
    (steady : ∀ id held kind place origin, call = .remembering id held kind place origin →
      ∀ identity, s.fs.stat place = some identity → named s.fs held = some identity)
    (h : advance s call action = some (next, s')) : Moved s next s' := by
  have rest {next' : Call} (hstep : some (next', s) = some (next, s')) (hfits : Fits s next') :
      Moved s next s' := by
    obtain ⟨rfl, rfl⟩ := Prod.mk.inj (Option.some.inj hstep)
    exact moved_rest chosen hfits
  have moved (result : Call × Places) (hstep : some result = some (next, s'))
      (hmoved : Moved s result.1 result.2) : Moved s next s' := by
    rwa [Option.some.inj hstep] at hmoved
  have lists {next' : Call} {places : Places} (hstep : some (next', places) = some (next, s'))
      (hfs : places.fs = s.fs) (hhistory : places.history = s.history)
      (hlisted : places.store.entries = s.store.entries) (hsaved : places.saved = s.saved)
      (hfits : Fits places next') : Moved s next s' := by
    refine moved _ hstep (moved_lists chosen hfs hhistory (fun e he => ?_) (fun list hlist => ?_) hfits)
    · rwa [hlisted] at he
    · rw [hsaved] at hlist
      exact .inl hlist
  cases call with
  | idle =>
    cases action with
    | pickFolder | pickFile => exact rest h trivial
    | provideFolder path =>
      refine rest h ?_
      cases s.fs.openDir path <;> trivial
    | remember id answer =>
      obtain ⟨held, -, hstart⟩ := Option.map_eq_some_iff.mp h
      exact moved _ (congrArg some hstart) (moved_startRemember chosen answer)
    | reopen key kind =>
      rw [advance] at h
      cases hfind : findEntry s.store key kind with
      | error reason =>
        rw [hfind] at h
        exact moved _ h (moved_refuseReopen chosen reason)
      | ok entry =>
        rw [hfind] at h
        exact rest h (chosen.listed entry (RecentCalls.findEntry_ok hfind).1)
    | forget key => exact moved _ h (moved_forget chosen)
    | release id => exact lists h rfl rfl rfl rfl trivial
    | proceed | fault => cases h
  | canonicalizing purpose path =>
    cases action with
    | proceed =>
      refine rest h ?_
      cases s.fs.canonicalize path with
      | none => exact fits_refusedPurpose
      | some place => exact fits_resolved fits
    | fault error => exact rest h fits_refusedPurpose
    | pickFolder | provideFolder | pickFile | remember | reopen | forget | release => cases h
  | opening origin path =>
    cases action with
    | proceed =>
      refine rest h ?_
      cases s.fs.openDir path <;> trivial
    | fault error => exact rest h trivial
    | pickFolder | provideFolder | pickFile | remember | reopen | forget | release => cases h
  | resolving dir path =>
    cases action with
    | proceed =>
      refine rest h ?_
      cases s.fs.canonicalize path <;> trivial
    | fault error => exact rest h trivial
    | pickFolder | provideFolder | pickFile | remember | reopen | forget | release => cases h
  | typing purpose path =>
    cases action with
    | proceed =>
      refine rest h ?_
      cases s.fs.stat path with
      | none => exact fits_refusedPurpose
      | some i =>
        dsimp only
        split
        · exact fits
        · exact fits_refusedPurpose
    | fault error => exact rest h fits_refusedPurpose
    | pickFolder | provideFolder | pickFile | remember | reopen | forget | release => cases h
  | parenting purpose path =>
    cases action with
    | proceed =>
      refine rest h ?_
      cases hname : fileName path with
      | none => exact fits_refusedPurpose
      | some name =>
        cases hdir : openParent s.fs path with
        | none => exact fits_refusedPurpose
        | some dir => exact fits_located fits hname hdir
    | fault error => exact rest h fits_refusedPurpose
    | pickFolder | provideFolder | pickFile | remember | reopen | forget | release => cases h
  | granting held kind place origin =>
    cases action with
    | proceed => exact lists h rfl rfl rfl rfl trivial
    | fault | pickFolder | provideFolder | pickFile | remember | reopen | forget | release => cases h
  | remembering id held kind place origin =>
    cases action with
    | proceed =>
      rw [advance] at h
      cases hstat : s.fs.stat place with
      | none =>
        rw [hstat] at h
        exact moved _ h (moved_refuseRemember chosen _)
      | some identity =>
        rw [hstat] at h
        exact rest h (steady id held kind place origin rfl identity hstat)
    | fault error => exact moved _ h (moved_refuseRemember chosen _)
    | pickFolder | provideFolder | pickFile | remember | reopen | forget | release => cases h
  | committing id kind place identity origin known =>
    cases action with
    | proceed => exact moved _ h (moved_commit chosen fits)
    | fault | pickFolder | provideFolder | pickFile | remember | reopen | forget | release => cases h
  | checking entry =>
    cases action with
    | proceed => exact moved _ h (moved_check chosen fits)
    | fault error => exact moved _ h (moved_refuseReopen chosen _)
    | pickFolder | provideFolder | pickFile | remember | reopen | forget | release => cases h
  | reading entry =>
    obtain ⟨hrecorded, hstands⟩ := fits
    cases action with
    | proceed =>
      refine rest h ?_
      unfold checked
      cases hkind : entry.kind with
      | directory => exact ⟨hrecorded, hkind, hstands⟩
      | file => exact ⟨hrecorded, hkind, hstands⟩
    | fault error => exact moved _ h (moved_refuseReopen chosen _)
    | pickFolder | provideFolder | pickFile | remember | reopen | forget | release => cases h
  | reopening entry =>
    obtain ⟨hrecorded, hkind, hstands⟩ := fits
    cases action with
    | proceed =>
      refine rest h ?_
      have hstat : s.fs.stat entry.path = some entry.identity := by
        unfold Stands at hstands
        rwa [hkind] at hstands
      unfold FileSystem.openDir
      rw [hstat]
      dsimp only
      by_cases htype : s.fs.tree.types entry.identity = .directory
      · rw [if_pos htype]
        exact ⟨hrecorded, rfl⟩
      · rw [if_neg htype]
        trivial
    | fault error => exact rest h trivial
    | pickFolder | provideFolder | pickFile | remember | reopen | forget | release => cases h
  | handing entry held =>
    cases action with
    | proceed => exact moved _ h (moved_hand chosen fits)
    | fault | pickFolder | provideFolder | pickFile | remember | reopen | forget | release => cases h
  | handed | refused =>
    cases action with
    | proceed => exact rest h trivial
    | fault | pickFolder | provideFolder | pickFile | remember | reopen | forget | release => cases h
  | releasing id =>
    cases action with
    | proceed => exact lists h rfl rfl rfl rfl trivial
    | fault | pickFolder | provideFolder | pickFile | remember | reopen | forget | release => cases h

end Sections

section Runs

variable {s s' : PlaceState} {e : PlaceEvent} {backing : Option Path} {fs : FileSystem}

theorem stands_same {entry : Entry} {before after : FileSystem} (h : Stands before entry)
    (same : SamePlace entry before after) : Stands after entry := by
  unfold Stands at h ⊢
  unfold SamePlace at same
  cases hkind : entry.kind with
  | directory =>
    rw [hkind] at h same
    exact same.trans h
  | file =>
    rw [hkind] at h same
    exact same.trans h

theorem fits_change {places : Places} {call : Call} (h : Fits places call)
    (kept : Kept places.fs fs call) : Fits { places with fs := fs } call := by
  cases call with
  | canonicalizing purpose path | typing purpose path | parenting purpose path =>
    cases purpose with
    | reopenFile entry =>
      obtain ⟨hrecorded, hkind, hstands⟩ := h
      exact ⟨hrecorded, hkind, stands_same hstands kept⟩
    | pickFolder | pickFile => trivial
  | reading entry => exact ⟨h.1, stands_same h.2 kept⟩
  | reopening entry => exact ⟨h.1, h.2.1, stands_same h.2.2 kept⟩
  | handing entry held => exact ⟨h.1, Eq.trans kept h.2⟩
  | committing | checking | handed => exact h
  | idle | opening | resolving | granting | remembering | refused | releasing => trivial

theorem keeps_next (keeps : Keeps s) (steady : Steady s e) (h : next s e = some s') : Keeps s' := by
  cases e with
  | change fs =>
    obtain rfl := Option.some.inj h
    exact ⟨⟨keeps.chosen.right, keeps.chosen.listed, keeps.chosen.saved⟩,
      fun t => fits_change (keeps.fits t) (steady t)⟩
  | restart list =>
    rw [next] at h
    by_cases hlist : list ∈ [] :: s.shared.saved
    · rw [if_pos hlist] at h
      obtain rfl := Option.some.inj h
      refine ⟨⟨keeps.chosen.right, fun entry hentry => ?_, keeps.chosen.saved⟩, fun _ => trivial⟩
      have hread : entry ∈ list := mem_decode_encode hentry
      rcases List.mem_cons.mp hlist with rfl | hsaved
      · cases hread
      · exact keeps.chosen.saved list hsaved entry hread
    · rw [if_neg hlist] at h
      cases h
  | task t action =>
    obtain ⟨call, hadvance, hcalls⟩ := step_cases h
    have moved := advance_moved keeps.chosen (keeps.fits t) (fun id held kind place origin hcall => by
      unfold Steady at steady
      dsimp only at steady hcall
      rw [hcall] at steady
      exact steady) hadvance
    refine ⟨moved.chosen, fun i => ?_⟩
    by_cases hi : i = t
    · rw [hi, hcalls, Function.update_self]
      exact moved.fits
    · rw [hcalls, Function.update_of_ne hi]
      exact fits_follows moved.follows (keeps.fits i)

theorem reopened_places_are_chosen
    (h : Reachable ((placeSystem backing fs).restrict Steady) s) : ReopensChosen s := by
  have keeps : Keeps s := by
    refine reachable_invariant (S := (placeSystem backing fs).restrict Steady) ?_ ?_ h
    · exact ⟨⟨nofun, nofun, nofun⟩, fun _ => trivial⟩
    · rintro s e s' keeps ⟨steady, hstep⟩
      exact keeps_next keeps steady hstep
  intro t entry owner hcall
  have fits := keeps.fits t
  rw [hcall] at fits
  obtain ⟨hrecorded, howner⟩ := fits
  refine ⟨hrecorded, fun known hknown => ⟨?_, ?_⟩⟩
  · rw [howner, keeps.chosen.right entry known hknown]
  · rw [howner]
    rfl

def twoFolders (first second : Bytes) : FileSystem where
  tree := {
    types := fun _ => .directory
    entries := fun i name =>
      if i ≠ ⟨0, 1⟩ then none
      else if name = first then some ⟨0, 2⟩
      else if name = second then some ⟨0, 3⟩
      else none
    follow := fun _ => none }
  root := ⟨0, 1⟩
  cwd := ⟨0, 1⟩
  canonicalize := some

def pathA : Path := [47, 97]

def chooseFolder : List Action :=
  [.pickFolder pathA (.trustedSelection .consentOnly), .proceed, .proceed, .proceed]

def rememberFolder : List Action :=
  [.remember ⟨.directory, 1⟩ (.ok (.trustedSelection .consentOnly)), .proceed, .proceed]

def reopenFolder : List Action := [.reopen 1 .directory, .proceed, .proceed, .proceed, .proceed]

theorem reachable_tasks {es : List (ℕ × Action)} (h : Reachable (placeSystem backing fs) s)
    (hruns : runs advance (fun _ _ => true) s es = true) :
    Reachable (placeSystem backing fs) (after advance s es) :=
  reachable_after _ (P := fun _ => True) (fun e => .task e.1 e.2) (fun _ _ _ _ _ _ hu => ⟨hu, trivial⟩)
    h trivial hruns

def steadyNow (s : PlaceState) (t : ℕ) : Bool :=
  match s.calls t with
  | .remembering _ held _ place _ => decide (s.shared.fs.stat place = named s.shared.fs held)
  | _ => true

theorem reopened_folder_chosen : ReopensChosen (after advance (started none (twoFolders [97] [98]))
    ((chooseFolder ++ rememberFolder ++ reopenFolder).map (0, ·))) := by
  refine @reopened_places_are_chosen _ none (twoFolders [97] [98])
    (reachable_after (fun s e => steadyNow s e.1) (P := fun _ => True) (fun e => .task e.1 e.2)
      (fun s e u _ _ hok hu => ⟨⟨?_, hu⟩, trivial⟩) (reachable_initial _) trivial (by decide +kernel))
  unfold Steady
  dsimp only
  unfold steadyNow at hok
  cases hcall : s.calls e.1 with
  | remembering id held kind place origin =>
    rw [hcall] at hok
    intro identity hstat
    exact (of_decide_eq_true hok).symm.trans hstat
  | _ => trivial

def folderChosen : PlaceState :=
  after advance (started none (twoFolders [97] [98])) (chooseFolder.map (0, ·))

def folderReplaced : PlaceState :=
  ⟨{ folderChosen.shared with fs := twoFolders [99] [97] }, folderChosen.calls⟩

def folderReopened : PlaceState :=
  after advance folderReplaced ((rememberFolder ++ reopenFolder).map (0, ·))

theorem replaced_folder_reopened : ¬∀ (backing : Option Path) (fs : FileSystem) (s : PlaceState),
    Reachable (placeSystem backing fs) s → ReopensChosen s := by
  intro claim
  have chosen : Reachable (placeSystem none (twoFolders [97] [98])) folderChosen :=
    reachable_tasks (reachable_initial _) (by decide +kernel)
  have replaced : Reachable (placeSystem none (twoFolders [97] [98])) folderReplaced :=
    reachable_step (e := .change (twoFolders [99] [97])) chosen rfl
  have reopened : Reachable (placeSystem none (twoFolders [97] [98])) folderReopened :=
    reachable_tasks replaced (by decide +kernel)
  have hcall : folderReopened.calls 0 =
      .handed ⟨1, .directory, pathA, ⟨0, 3⟩, .trustedSelection .consentOnly⟩ (some ⟨0, 3⟩) := by
    rfl
  have hrecord : (⟨1, .directory, pathA, ⟨0, 3⟩, .trustedSelection .consentOnly⟩, some ⟨0, 2⟩) ∈
      folderReopened.shared.history := by
    decide +kernel
  obtain ⟨-, hall⟩ := claim _ _ _ reopened 0 _ _ hcall
  exact absurd (hall _ hrecord).1 (by decide)

end Runs

end ReopenedPlaces
