import RocGui.AppData

/-! What reads and writes of application data see of each other. A value is safe from the
writes to other names as long as no name in use is that of a temporary file. -/
namespace AppDataRuns

open Grants InodeFolders ThreadSystems Transitions TextFormats AppData

def staged : Call → Option Text
  | .filling _ id _ _ | .committing _ id | .removing _ id _ _ => some (temporary id)
  | _ => none

/-- No name read is that of a temporary file, no name written that of another write's, and
the temporary file of a write is not there before it. The numbers do not run out. -/
def Apart (s : AppState) : AppEvent → Prop
  | .task t _ => match s.calls t with
    | .opening r => r.name ∉ s.shared.temporaries
    | .drawing _ => s.shared.temp + 1 < 2 ^ 64
    | .creating _ id => s.shared.folder.entries (temporary id) = none
    | .committing w _ => ∀ t', t' ≠ t → staged (s.calls t') ≠ some w.name
    | _ => True
  | .restart => True

/-- A finished read answers what its name held when the file was opened. -/
def ReadEnds (r : Read) (expected : Option Text) (faulted : Bool)
    (answer : Except Failure (Option Text)) : Prop :=
  answer = .ok expected ∨ ∃ failure, answer = .error failure ∧ (faulted = true ∨ r.refused = some failure)

/-- A write that failed has committed nothing, and was refused or met a fault. -/
def WriteEnds (w : Write) (faulted committed : Bool) (outcome : Except Failure Unit) : Prop :=
  (outcome = .ok () ∧ committed = true) ∨ ∃ failure, outcome = .error failure ∧ committed = false ∧
    (faulted = true ∨ w.refused = some failure)

structure Isolated (s : AppState) : Prop where
  values : ∀ n, n ∉ s.shared.temporaries →
    s.shared.folder.read n = (s.shared.committed n).map utf8
  reads : ∀ t r expected faulted answer,
    s.calls t = .answered r expected faulted answer → ReadEnds r expected faulted answer
  writes : ∀ t w faulted committed outcome,
    s.calls t = .ended w faulted committed outcome → WriteEnds w faulted committed outcome

/-- A value changes by the commit of a write to its own name. -/
def Separate (s : AppState) (e : AppEvent) (s' : AppState) : Prop :=
  ∀ n, n ∉ s.shared.temporaries → n ∉ s'.shared.temporaries →
    s'.shared.folder.read n = s.shared.folder.read n ∨ ∃ t action w id, e = .task t action ∧
      s.calls t = .committing w id ∧ w.name = n ∧ s'.calls t = .syncing w ∧
        s'.shared.folder.read n = some (utf8 w.value)

structure Tidy (s : AppFolder) : Prop where
  sound : s.folder.Sound
  values : ∀ n, n ∉ s.temporaries → s.folder.read n = (s.committed n).map utf8
  uncommitted : ∀ n ∈ s.temporaries, s.committed n = none
  sized : ∀ n value, s.committed n = some value → (utf8 value).length ≤ maxValueBytes

structure Staged (s : AppFolder) (id inode : ℕ) (bytes : Bytes) : Prop where
  entry : s.folder.entries (temporary id) = some inode
  contents : s.folder.contents inode = bytes
  listed : temporary id ∈ s.temporaries

/-- A value in a file that is no temporary one, which nothing writes to. -/
structure Settled (s : AppFolder) (inode : ℕ) (value : Text) : Prop where
  used : inode < s.folder.fresh
  contents : s.folder.contents inode = utf8 value
  sized : (utf8 value).length ≤ maxValueBytes
  apart : ∀ n ∈ s.temporaries, s.folder.entries n ≠ some inode

/-- What a call relies on between its sections. -/
def Fits (s : AppFolder) : Call → Prop
  | .idle | .syncing _ => True
  | .opening r => r.refused = none
  | .reading _ inode bytes expected => ∃ value, expected = some value ∧ Settled s inode value ∧
      bytes = (utf8 value).take bytes.length
  | .answered r expected faulted answer => ReadEnds r expected faulted answer
  | .drawing w => w.refused = none
  | .creating w _ => w.refused = none
  | .filling w id inode written => w.refused = none ∧
      Staged s id inode ((utf8 w.value).take written) ∧ written ≤ (utf8 w.value).length
  | .committing w id => w.refused = none ∧ ∃ inode, Staged s id inode (utf8 w.value)
  | .removing _ id faulted _ => faulted = true ∧ ∃ inode bytes, Staged s id inode bytes
  | .ended w faulted committed outcome => WriteEnds w faulted committed outcome

def number : Call → Option ℕ
  | .creating _ id | .filling _ id _ _ | .committing _ id | .removing _ id _ _ => some id
  | _ => none

structure Keeps (s : AppState) : Prop where
  tidy : Tidy s.shared
  fits : ∀ t, Fits s.shared (s.calls t)
  drawn : ∀ t id, number (s.calls t) = some id → id < s.shared.temp
  distinct : ∀ t t' id, number (s.calls t) = some id → number (s.calls t') = some id → t = t'

section Frames

/-- What a section leaves as it was, where it touches these names. -/
structure Frame (touched : List Text) (s s' : AppFolder) : Prop where
  fresh : s.folder.fresh ≤ s'.folder.fresh
  entries : ∀ n, n ∉ touched → s'.folder.entries n = s.folder.entries n
  listed : ∀ n ∈ s.temporaries, n ∉ touched → n ∈ s'.temporaries
  contents : ∀ i < s.folder.fresh,
    (∀ n ∈ touched, n ∈ s.temporaries → s.folder.entries n ≠ some i) →
      s'.folder.contents i = s.folder.contents i
  stays : ∀ n ∈ s'.temporaries, ∀ i < s.folder.fresh, s'.folder.entries n = some i →
    n ∈ s.temporaries ∧ s.folder.entries n = some i

variable {s s' : AppFolder} {touched : List Text} {call : Call} {id inode : ℕ} {bytes : Bytes}

theorem frame_of_folder (hfolder : s'.folder = s.folder) (htemporaries : s'.temporaries = s.temporaries) :
    Frame touched s s' where
  fresh := by rw [hfolder]
  entries n _ := by rw [hfolder]
  listed n hn _ := by rwa [htemporaries]
  contents i _ _ := by rw [hfolder]
  stays n hn i _ hi := by
    rw [htemporaries] at hn
    rw [hfolder] at hi
    exact ⟨hn, hi⟩

theorem staged_frame (tidy : Tidy s) (frame : Frame touched s s') (h : Staged s id inode bytes)
    (hid : temporary id ∉ touched) : Staged s' id inode bytes where
  entry := by rw [frame.entries _ hid, h.entry]
  contents := by
    rw [frame.contents inode (tidy.sound.used _ _ h.entry) fun n hn _ hi => ?_, h.contents]
    exact hid (tidy.sound.single _ _ _ hi h.entry ▸ hn)
  listed := frame.listed _ h.listed hid

theorem settled_frame {value : Text} (frame : Frame touched s s') (h : Settled s inode value) :
    Settled s' inode value where
  used := Nat.lt_of_lt_of_le h.used frame.fresh
  contents := by rw [frame.contents inode h.used fun n _ hn => h.apart n hn, h.contents]
  sized := h.sized
  apart n hn hi := by
    obtain ⟨hold, hentry⟩ := frame.stays n hn inode h.used hi
    exact h.apart n hold hentry

theorem fits_frame (tidy : Tidy s) (frame : Frame touched s s') (h : Fits s call)
    (huntouched : ∀ n, staged call = some n → n ∉ touched) : Fits s' call := by
  cases call with
  | reading r inode bytes expected =>
    obtain ⟨value, hexpected, hsettled, hbytes⟩ := h
    exact ⟨value, hexpected, settled_frame frame hsettled, hbytes⟩
  | filling w id inode written =>
    obtain ⟨hrefused, hstaged, hwritten⟩ := h
    exact ⟨hrefused, staged_frame tidy frame hstaged (huntouched _ rfl), hwritten⟩
  | committing w id =>
    obtain ⟨hrefused, inode, hstaged⟩ := h
    exact ⟨hrefused, inode, staged_frame tidy frame hstaged (huntouched _ rfl)⟩
  | removing w id faulted failure =>
    obtain ⟨hfaulted, inode, bytes, hstaged⟩ := h
    exact ⟨hfaulted, inode, bytes, staged_frame tidy frame hstaged (huntouched _ rfl)⟩
  | idle | syncing | opening | answered | drawing | creating | ended => exact h

end Frames

def Touches (call : Call) (n : Text) : Prop :=
  (∃ id, number call = some id ∧ n = temporary id) ∨ ∃ w id, call = .committing w id ∧ n = w.name

/-- A section of `call` that touches these names and goes on as `next`. -/
structure Moved (s : AppFolder) (call : Call) (touched : List Text) (next : Call) (s' : AppFolder) :
    Prop where
  tidy : Tidy s'
  fits : Fits s' next
  frame : Frame touched s s'
  touches : ∀ n ∈ touched, Touches call n
  /-- A call drops its number, keeps it or draws the next one. -/
  numbers : (∀ id, number next = some id → number call = some id) ∧ s'.temp = s.temp ∨
    number next = some s.temp ∧ s'.temp = s.temp + 1
  /-- The history of a name goes on with a commit to it alone. -/
  history : s'.committed = s.committed ∨ ∃ w id, call = .committing w id ∧ next = .syncing w ∧
    s'.committed = Function.update s.committed w.name (some w.value)

section Sections

variable {s : AppFolder} {w : Write} {id inode : ℕ}

theorem take_append_chunk {whole chunk : Bytes} {k n : ℕ} (h : (whole.drop k).take n = chunk) :
    whole.take k ++ chunk = whole.take (k + chunk.length) := by
  have hleads : chunk = (whole.drop k).take chunk.length := by
    rw [← h, List.length_take, List.take_eq_take_iff]
    simp
  rw [List.take_add, ← hleads]

theorem fits_openRead {r : Read} (tidy : Tidy s) (hname : r.name ∉ s.temporaries) :
    Fits s (openRead s r) := by
  have hvalue := tidy.values r.name hname
  unfold openRead
  cases hentry : s.folder.entries r.name with
  | none =>
    rw [Folder.read, hentry] at hvalue
    have hnone := Option.map_eq_none_iff.mp hvalue.symm
    exact .inl (by rw [hnone])
  | some inode =>
    rw [read_contents hentry] at hvalue
    obtain ⟨value, hcommitted, hbytes⟩ := Option.map_eq_some_iff.mp hvalue.symm
    refine ⟨value, hcommitted, ⟨tidy.sound.used _ _ hentry, hbytes.symm, tidy.sized _ _ hcommitted,
      fun n hn hi => hname ?_⟩, rfl⟩
    exact tidy.sound.single _ _ _ hi hentry ▸ hn

theorem number_openRead {r : Read} : number (openRead s r) = none := by
  unfold openRead
  split <;> rfl

theorem number_readChunk {r : Read} {bytes : Bytes} {expected : Option Text} {count : ℕ} :
    number (readChunk s r inode bytes expected count) = none := by
  rw [readChunk]
  generalize ((s.folder.contents inode).drop bytes.length).take _ = chunk
  by_cases hend : chunk = []
  · rw [if_pos hend]
    rfl
  · rw [if_neg hend]
    rfl

theorem fits_readChunk {r : Read} {bytes : Bytes} {expected : Option Text} {count : ℕ}
    (fits : Fits s (.reading r inode bytes expected)) (hcount : count ≠ 0) :
    Fits s (readChunk s r inode bytes expected count) := by
  obtain ⟨value, hexpected, hsettled, hbytes⟩ := fits
  have hsized := hsettled.sized
  have hlength : bytes.length ≤ (utf8 value).length := by
    rw [hbytes, List.length_take]
    omega
  unfold readChunk
  rw [hsettled.contents]
  generalize hchunk : ((utf8 value).drop bytes.length).take
    (min count (maxValueBytes + 1 - bytes.length)) = chunk
  by_cases hend : chunk = []
  · -- the bound is not reached, so that the file is at its end
    have hall : bytes = utf8 value := by
      rw [hend, List.take_eq_nil_iff, List.drop_eq_nil_iff] at hchunk
      rw [hbytes]
      exact List.take_of_length_le (by omega)
    rw [if_pos hend]
    refine .inl ?_
    rw [readAnswer, if_neg (by omega), hall, fromUtf8_utf8, hexpected]
  · rw [if_neg hend]
    refine ⟨value, hexpected, hsettled, ?_⟩
    rw [List.length_append, ← take_append_chunk hchunk, ← hbytes]

theorem moved_rest {call next : Call} (tidy : Tidy s) (fits : Fits s next)
    (hnumber : ∀ id, number next = some id → number call = some id) : Moved s call [] next s :=
  ⟨tidy, fits, frame_of_folder rfl rfl, nofun, .inl ⟨hnumber, rfl⟩, .inl rfl⟩

theorem moved_draw (tidy : Tidy s) (hrefused : w.refused = none) (hbound : s.temp + 1 < 2 ^ 64) :
    Moved s (.drawing w) [] (draw s w).1 (draw s w).2 := by
  rw [draw, if_pos hbound]
  exact ⟨⟨tidy.sound, tidy.values, tidy.uncommitted, tidy.sized⟩, hrefused, frame_of_folder rfl rfl,
    nofun, .inr ⟨rfl, rfl⟩, .inl rfl⟩

theorem touches_own {call : Call} (hnumber : number call = some id) :
    ∀ n ∈ [temporary id], Touches call n :=
  fun _ hn => .inl ⟨id, hnumber, List.mem_singleton.mp hn⟩

theorem committed_of_free {n : Text} (tidy : Tidy s) (hfree : s.folder.entries n = none) :
    s.committed n = none := by
  by_cases hn : n ∈ s.temporaries
  · exact tidy.uncommitted n hn
  · have hread := tidy.values n hn
    rw [Folder.read, hfree, Option.map_none] at hread
    exact Option.map_eq_none_iff.mp hread.symm

theorem moved_create (tidy : Tidy s) (hrefused : w.refused = none)
    (hfree : s.folder.entries (temporary id) = none) :
    Moved s (.creating w id) [temporary id] (create s w id).1 (create s w id).2 := by
  have hcreate : create s w id = (.filling w id s.folder.fresh 0,
      { s with folder := s.folder.allocate (temporary id), temporaries := temporary id :: s.temporaries }) := by
    rw [create, Folder.createNew, hfree]
  rw [hcreate]
  dsimp only
  have hnone := committed_of_free tidy hfree
  have entries_ne {n : Text} (hn : n ≠ temporary id) :
      (s.folder.allocate (temporary id)).entries n = s.folder.entries n := Function.update_of_ne hn _ _
  have hentry : (s.folder.allocate (temporary id)).entries (temporary id) = some s.folder.fresh :=
    Function.update_self _ _ _
  refine ⟨⟨sound_allocate tidy.sound, fun n hn => ?_, fun n hn => ?_, tidy.sized⟩,
    ⟨hrefused, ⟨hentry, ?_, List.mem_cons_self⟩, Nat.zero_le _⟩,
    ⟨Nat.le_succ _, fun n hn => ?_, fun n hn _ => List.mem_cons_of_mem _ hn, fun i hi _ => ?_,
      fun n hn i hi hentries => ?_⟩, touches_own rfl, .inl ⟨fun _ hid => hid, rfl⟩, .inl rfl⟩
  · obtain ⟨hne, hn⟩ := not_or.mp fun h => hn (List.mem_cons.mpr h)
    rw [← tidy.values n hn]
    exact read_allocate tidy.sound hne
  · rcases List.mem_cons.mp hn with rfl | hn
    · exact hnone
    · exact tidy.uncommitted n hn
  · exact Function.update_self _ _ _
  · exact entries_ne fun h => hn (h ▸ List.mem_cons_self)
  · exact Function.update_of_ne (Nat.ne_of_lt hi) _ _
  · by_cases hne : n = temporary id
    · subst hne
      cases hentry.symm.trans hentries
      exact absurd hi (Nat.lt_irrefl _)
    · exact ⟨List.mem_of_ne_of_mem hne hn, (entries_ne hne).symm.trans hentries⟩

theorem moved_fill {written count : ℕ} (tidy : Tidy s) (hrefused : w.refused = none)
    (h : Staged s id inode ((utf8 w.value).take written)) (hwritten : written ≤ (utf8 w.value).length) :
    Moved s (.filling w id inode written) [temporary id] (fill s w id inode written count).1
      (fill s w id inode written count).2 := by
  generalize hchunk : ((utf8 w.value).drop written).take count = chunk
  have hfill : fill s w id inode written count = (.filling w id inode (written + chunk.length),
      { s with folder := s.folder.write inode written chunk }) := by rw [fill, hchunk]
  rw [hfill]
  dsimp only
  have hlength : ((utf8 w.value).take written).length = written := by
    rw [List.length_take]
    omega
  have hbytes := take_append_chunk hchunk
  have hlast : written + chunk.length ≤ (utf8 w.value).length := by
    rw [← hchunk, List.length_take, List.length_drop]
    omega
  have hread {n : Text} (hn : n ∉ s.temporaries) :
      (s.folder.write inode written chunk).read n = s.folder.read n := by
    refine read_write fun hi => hn ?_
    exact tidy.sound.single _ _ _ hi h.entry ▸ h.listed
  refine ⟨⟨sound_write tidy.sound, fun n hn => (hread hn).trans (tidy.values n hn), tidy.uncommitted,
    tidy.sized⟩, ⟨hrefused, ⟨h.entry, ?_, h.listed⟩, hlast⟩, ⟨Nat.le_refl _, fun _ _ => rfl, fun n hn _ => hn,
      fun i _ hi => ?_, fun n hn i _ hentries => ⟨hn, hentries⟩⟩, touches_own rfl,
        .inl ⟨fun _ hid => hid, rfl⟩, .inl rfl⟩
  · rw [contents_write_self, h.contents, ← hbytes]
    have hend := overwrite_end ((utf8 w.value).take written) chunk
    rwa [hlength] at hend
  · refine contents_write_ne fun heq => ?_
    exact hi _ List.mem_cons_self h.listed (heq ▸ h.entry)

theorem length_of_accepted (h : w.refused = none) : (utf8 w.value).length ≤ maxValueBytes := by
  unfold Write.refused at h
  split at h
  · cases h
  · by_cases hname : (!validName w.name) = true
    · rw [if_pos hname] at h
      cases h
    · rw [if_neg hname] at h
      by_cases hlong : maxValueBytes < (utf8 w.value).length
      · rw [if_pos hlong] at h
        cases h
      · exact Nat.le_of_not_lt hlong

theorem moved_commit (tidy : Tidy s) (hrefused : w.refused = none)
    (h : Staged s id inode (utf8 w.value)) :
    Moved s (.committing w id) [temporary id, w.name] (commit s w id).1 (commit s w id).2 := by
  obtain ⟨folder, hrename⟩ : ∃ folder, s.folder.rename (temporary id) w.name = some folder := by
    rw [Folder.rename, h.entry]
    exact ⟨_, rfl⟩
  have hcommit : commit s w id = (.syncing w,
      { s with
        folder := folder
        committed := Function.update s.committed w.name (some w.value)
        temporaries := s.temporaries.filter fun n => n ≠ temporary id ∧ n ≠ w.name }) := by
    rw [commit, hrename]
  rw [hcommit]
  dsimp only
  obtain ⟨hcontents, hfresh, htarget, hsource, hother⟩ := rename_cases hrename
  have mem_filter {n : Text} : n ∈ (s.temporaries.filter fun n => n ≠ temporary id ∧ n ≠ w.name) ↔
      n ∈ s.temporaries ∧ n ≠ temporary id ∧ n ≠ w.name := by
    rw [List.mem_filter, decide_eq_true_iff]
  have untouched {n : Text} (hn : n ∉ [temporary id, w.name]) : n ≠ temporary id ∧ n ≠ w.name := by
    simpa using hn
  refine ⟨⟨sound_rename tidy.sound hrename, fun n hn => ?_, fun n hn => ?_, fun n value hvalue => ?_⟩,
    trivial, ⟨hfresh ▸ Nat.le_refl _, fun n hn => ?_, fun n hn hne => ?_, fun i _ _ => ?_,
      fun n hn i _ hi => ?_⟩, fun n hn => ?_, .inl ⟨nofun, rfl⟩,
        .inr ⟨w, id, rfl, rfl, rfl⟩⟩
  · change folder.read n = (Function.update s.committed w.name (some w.value) n).map utf8
    by_cases hname : n = w.name
    · subst hname
      rw [read_rename_target hrename, read_contents h.entry, h.contents, Function.update_self]
      rfl
    · rw [Function.update_of_ne hname]
      by_cases htemporary : n = temporary id
      · subst htemporary
        rw [Folder.read, hsource hname, tidy.uncommitted _ h.listed]
        rfl
      · rw [read_rename_ne hrename htemporary hname]
        exact tidy.values n fun hold => hn (mem_filter.mpr ⟨hold, htemporary, hname⟩)
  · obtain ⟨hold, -, hname⟩ := mem_filter.mp hn
    exact (Function.update_of_ne hname _ _).trans (tidy.uncommitted n hold)
  · change Function.update s.committed w.name (some w.value) n = some value at hvalue
    by_cases hname : n = w.name
    · subst hname
      rw [Function.update_self] at hvalue
      obtain rfl := Option.some.inj hvalue
      exact length_of_accepted hrefused
    · rw [Function.update_of_ne hname] at hvalue
      exact tidy.sized n value hvalue
  · obtain ⟨htemporary, hname⟩ := untouched hn
    exact hother n htemporary hname
  · exact mem_filter.mpr ⟨hn, untouched hne⟩
  · exact congrFun hcontents i
  · obtain ⟨hold, htemporary, hname⟩ := mem_filter.mp hn
    exact ⟨hold, (hother n htemporary hname).symm.trans hi⟩
  · rcases List.mem_cons.mp hn with rfl | hn
    · exact .inl ⟨id, rfl, rfl⟩
    · exact .inr ⟨w, id, rfl, List.mem_singleton.mp hn⟩

theorem moved_remove {faulted : Bool} {failure : Failure} {bytes : Bytes} (tidy : Tidy s)
    (hfaulted : faulted = true) (h : Staged s id inode bytes) :
    Moved s (.removing w id faulted failure) [temporary id] (.ended w faulted false (.error failure))
      (removeTemporary s id) := by
  obtain ⟨folder, hremove⟩ : ∃ folder, s.folder.remove (temporary id) = some folder := by
    rw [Folder.remove, h.entry]
    exact ⟨_, rfl⟩
  have hremoved : removeTemporary s id = { s with
      folder := folder, temporaries := s.temporaries.filter fun n => n ≠ temporary id } := by
    rw [removeTemporary, hremove]
  rw [hremoved]
  obtain ⟨hcontents, hfresh, hgone, hother⟩ := remove_cases hremove
  have mem_filter {n : Text} : n ∈ (s.temporaries.filter fun n => n ≠ temporary id) ↔
      n ∈ s.temporaries ∧ n ≠ temporary id := by
    rw [List.mem_filter, decide_eq_true_iff]
  refine ⟨⟨sound_remove tidy.sound hremove, fun n hn => ?_, fun n hn => ?_, tidy.sized⟩,
    .inr ⟨failure, rfl, rfl, .inl hfaulted⟩, ⟨hfresh ▸ Nat.le_refl _, fun n hn => ?_,
      fun n hn hne => ?_, fun i _ _ => ?_, fun n hn i _ hi => ?_⟩, touches_own rfl,
        .inl ⟨nofun, rfl⟩, .inl rfl⟩
  · change folder.read n = (s.committed n).map utf8
    by_cases hname : n = temporary id
    · subst hname
      rw [Folder.read, hgone, tidy.uncommitted _ h.listed]
      rfl
    · rw [read_remove_ne hremove hname]
      exact tidy.values n fun hold => hn (mem_filter.mpr ⟨hold, hname⟩)
  · exact tidy.uncommitted n (mem_filter.mp hn).1
  · exact hother n fun h => hn (h ▸ List.mem_cons_self)
  · exact mem_filter.mpr ⟨hn, fun h => hne (h ▸ List.mem_cons_self)⟩
  · exact congrFun hcontents i
  · obtain ⟨hold, hname⟩ := mem_filter.mp hn
    exact ⟨hold, (hother n hname).symm.trans hi⟩

end Sections

section Steps

variable {s s' : AppFolder} {call next : Call} {action : Action}

theorem advance_moved (tidy : Tidy s) (fits : Fits s call)
    (hread : ∀ r, call = .opening r → r.name ∉ s.temporaries)
    (hdraw : ∀ w, call = .drawing w → s.temp + 1 < 2 ^ 64)
    (hcreate : ∀ w id, call = .creating w id → s.folder.entries (temporary id) = none)
    (h : advance s call action = some (next, s')) : ∃ touched, Moved s call touched next s' := by
  have rest {next' : Call} (hstep : some (next', s) = some (next, s')) (hfits : Fits s next')
      (hnumber : number next' = none ∨ number next' = number call) :
      ∃ touched, Moved s call touched next s' := by
    obtain ⟨rfl, rfl⟩ := Prod.mk.inj (Option.some.inj hstep)
    refine ⟨[], moved_rest tidy hfits fun id hid => ?_⟩
    rcases hnumber with hnumber | hnumber
    · cases hnumber.symm.trans hid
    · exact hnumber ▸ hid
  have moved {result : Call × AppFolder} {touched : List Text} (hstep : some result = some (next, s'))
      (hmoved : Moved s call touched result.1 result.2) : ∃ touched, Moved s call touched next s' := by
    rw [Option.some.inj hstep] at hmoved
    exact ⟨touched, hmoved⟩
  cases call with
  | idle =>
    cases action with
    | read r =>
      cases hrefused : r.refused with
      | none =>
        rw [advance, hrefused] at h
        exact rest h hrefused (.inl rfl)
      | some failure =>
        rw [advance, hrefused] at h
        exact rest h (Or.inr ⟨failure, rfl, .inr hrefused⟩) (.inl rfl)
    | write w =>
      cases hrefused : w.refused with
      | none =>
        rw [advance, hrefused] at h
        exact rest h hrefused (.inl rfl)
      | some failure =>
        rw [advance, hrefused] at h
        exact rest h (Or.inr ⟨failure, rfl, rfl, .inr hrefused⟩) (.inl rfl)
    | proceed | transfer | fault => cases h
  | opening r =>
    cases action with
    | proceed => exact rest h (fits_openRead tidy (hread r rfl)) (.inl number_openRead)
    | fault => exact rest h (Or.inr ⟨_, rfl, .inl rfl⟩) (.inl rfl)
    | read | write | transfer => cases h
  | reading r inode bytes expected =>
    cases action with
    | transfer count =>
      by_cases hcount : count = 0
      · rw [advance, if_pos hcount] at h
        cases h
      · rw [advance, if_neg hcount] at h
        exact rest h (fits_readChunk fits hcount) (.inl number_readChunk)
    | fault => exact rest h (Or.inr ⟨_, rfl, .inl rfl⟩) (.inl rfl)
    | read | write | proceed => cases h
  | answered | ended =>
    cases action with
    | proceed => exact rest h trivial (.inl rfl)
    | read | write | transfer | fault => cases h
  | drawing w =>
    cases action with
    | proceed => exact moved h (moved_draw tidy fits (hdraw w rfl))
    | read | write | transfer | fault => cases h
  | creating w id =>
    cases action with
    | proceed => exact moved h (moved_create tidy fits (hcreate w id rfl))
    | fault => exact rest h (Or.inr ⟨_, rfl, rfl, .inl rfl⟩) (.inl rfl)
    | read | write | transfer => cases h
  | filling w id inode written =>
    obtain ⟨hrefused, hstaged, hwritten⟩ := fits
    cases action with
    | transfer count =>
      by_cases hcount : count = 0
      · rw [advance, if_pos hcount] at h
        cases h
      · rw [advance, if_neg hcount] at h
        exact moved h (moved_fill tidy hrefused hstaged hwritten)
    | proceed =>
      by_cases hall : written = (utf8 w.value).length
      · rw [advance, if_pos hall] at h
        rw [hall, List.take_length] at hstaged
        exact rest h ⟨hrefused, inode, hstaged⟩ (.inr rfl)
      · rw [advance, if_neg hall] at h
        cases h
    | fault => exact rest h ⟨rfl, inode, _, hstaged⟩ (.inr rfl)
    | read | write => cases h
  | committing w id =>
    obtain ⟨hrefused, inode, hstaged⟩ := fits
    cases action with
    | proceed => exact moved h (moved_commit tidy hrefused hstaged)
    | fault => exact rest h ⟨rfl, inode, _, hstaged⟩ (.inr rfl)
    | read | write | transfer => cases h
  | removing w id faulted failure =>
    obtain ⟨hfaulted, inode, bytes, hstaged⟩ := fits
    cases action with
    | proceed => exact moved h (moved_remove tidy hfaulted hstaged)
    | fault => exact rest h (Or.inr ⟨_, rfl, rfl, .inl hfaulted⟩) (.inl rfl)
    | read | write | transfer => cases h
  | syncing w =>
    cases action with
    | proceed => exact rest h (Or.inl ⟨rfl, rfl⟩) (.inl rfl)
    | read | write | transfer | fault => cases h

end Steps

section Runs

variable {s s' : AppState} {e : AppEvent}

theorem number_of_staged {call : Call} {n : Text} (h : staged call = some n) :
    ∃ id, number call = some id ∧ n = temporary id := by
  cases call with
  | filling w id inode written => exact ⟨id, rfl, (Option.some.inj h).symm⟩
  | committing w id => exact ⟨id, rfl, (Option.some.inj h).symm⟩
  | removing w id faulted failure => exact ⟨id, rfl, (Option.some.inj h).symm⟩
  | idle | opening | reading | answered | drawing | creating | syncing | ended => cases h

theorem next_moved {t : ℕ} {action : Action} (keeps : Keeps s) (apart : Apart s (.task t action))
    (h : next s (.task t action) = some s') : ∃ touched call,
      Moved s.shared (s.calls t) touched call s'.shared ∧ s'.calls = Function.update s.calls t call := by
  obtain ⟨call, hadvance, hcalls⟩ := step_cases h
  unfold Apart at apart
  dsimp only at apart hadvance
  obtain ⟨touched, moved⟩ := advance_moved keeps.tidy (keeps.fits t)
    (fun r hcall => by rw [hcall] at apart; exact apart)
    (fun w hcall => by rw [hcall] at apart; exact apart)
    (fun w id hcall => by rw [hcall] at apart; exact apart) hadvance
  exact ⟨touched, call, moved, hcalls⟩

theorem untouched_of_apart {t t' : ℕ} {action : Action} {n : Text} (keeps : Keeps s)
    (apart : Apart s (.task t action)) (hne : t' ≠ t) (hstaged : staged (s.calls t') = some n) :
    ¬Touches (s.calls t) n := by
  rintro (⟨id, hnumber, rfl⟩ | ⟨w, id, hcall, rfl⟩)
  · obtain ⟨id', hnumber', heq⟩ := number_of_staged hstaged
    obtain rfl := temporary_injective heq
    exact hne (keeps.distinct t' t id hnumber' hnumber)
  · unfold Apart at apart
    dsimp only at apart
    rw [hcall] at apart
    exact apart t' hne hstaged

theorem keeps_next (keeps : Keeps s) (apart : Apart s e) (h : next s e = some s') : Keeps s' := by
  cases e with
  | restart =>
    obtain rfl := Option.some.inj h
    have tidy := keeps.tidy
    exact ⟨⟨tidy.sound, tidy.values, tidy.uncommitted, tidy.sized⟩, (fun _ => trivial), nofun, nofun⟩
  | task t action =>
    obtain ⟨touched, call, moved, hcalls⟩ := next_moved keeps apart h
    have here : s'.calls t = call := by rw [hcalls, Function.update_self]
    have other {i : ℕ} (hi : i ≠ t) : s'.calls i = s.calls i := by
      rw [hcalls, Function.update_of_ne hi]
    have bound {i id : ℕ} (hid : number (s.calls i) = some id) : id < s'.shared.temp := by
      have hdrawn := keeps.drawn i id hid
      rcases moved.numbers with ⟨-, htemp⟩ | ⟨-, htemp⟩ <;> omega
    -- the call that moved shares its number with no other one
    have alone {i id : ℕ} (hi : i ≠ t) (hid : number call = some id)
        (hother : number (s.calls i) = some id) : False := by
      rcases moved.numbers with ⟨hkept, -⟩ | ⟨hdrawn, -⟩
      · exact hi (keeps.distinct i t id hother (hkept id hid))
      · obtain rfl := Option.some.inj (hdrawn.symm.trans hid)
        exact Nat.lt_irrefl _ (keeps.drawn i _ hother)
    refine ⟨moved.tidy, fun i => ?_, fun i id hid => ?_, fun i j id hid hjd => ?_⟩
    · by_cases hi : i = t
      · rw [hi, here]
        exact moved.fits
      · rw [other hi]
        exact fits_frame keeps.tidy moved.frame (keeps.fits i) fun n hn htouched =>
          untouched_of_apart keeps apart hi hn (moved.touches n htouched)
    · by_cases hi : i = t
      · rw [hi, here] at hid
        rcases moved.numbers with ⟨hkept, -⟩ | ⟨hdrawn, htemp⟩
        · exact bound (hkept id hid)
        · obtain rfl := Option.some.inj (hdrawn.symm.trans hid)
          omega
      · rw [other hi] at hid
        exact bound hid
    · by_cases hi : i = t
      · by_cases hj : j = t
        · rw [hi, hj]
        · rw [hi, here] at hid
          rw [other hj] at hjd
          exact (alone hj hid hjd).elim
      · rw [other hi] at hid
        by_cases hj : j = t
        · rw [hj, here] at hjd
          exact (alone hi hjd hid).elim
        · rw [other hj] at hjd
          exact keeps.distinct i j id hid hjd

theorem keeps_started : Keeps started :=
  ⟨⟨⟨nofun, nofun⟩, (fun _ _ => rfl), nofun, nofun⟩, (fun _ => trivial), nofun, nofun⟩

theorem isolated_of_keeps (keeps : Keeps s) : Isolated s where
  values := keeps.tidy.values
  reads t r expected faulted answer hcall := by
    have fits := keeps.fits t
    rwa [hcall] at fits
  writes t w faulted committed outcome hcall := by
    have fits := keeps.fits t
    rwa [hcall] at fits

theorem separate_next (keeps : Keeps s) (apart : Apart s e) (h : next s e = some s') :
    Separate s e s' := by
  intro n hn hn'
  have keeps' := keeps_next keeps apart h
  rw [keeps.tidy.values n hn, keeps'.tidy.values n hn']
  cases e with
  | restart =>
    obtain rfl := Option.some.inj h
    exact .inl rfl
  | task t action =>
    obtain ⟨touched, call, moved, hcalls⟩ := next_moved keeps apart h
    rcases moved.history with hsame | ⟨w, id, hcall, rfl, hcommitted⟩
    · rw [hsame]
      exact .inl rfl
    · rw [hcommitted]
      by_cases hname : n = w.name
      · subst hname
        refine .inr ⟨t, action, w, id, rfl, hcall, rfl, ?_, ?_⟩
        · rw [hcalls, Function.update_self]
        · rw [Function.update_self]
          rfl
      · rw [Function.update_of_ne hname]
        exact .inl rfl

theorem application_data_isolated (h : Reachable (appSystem.restrict Apart) s) :
    Isolated s ∧ ∀ e s', Apart s e → appSystem.Step s e s' → Separate s e s' := by
  have keeps : Keeps s := by
    refine reachable_invariant (S := appSystem.restrict Apart) keeps_started ?_ h
    rintro s e s' keeps ⟨apart, hstep⟩
    exact keeps_next keeps apart hstep
  exact ⟨isolated_of_keeps keeps, fun e s' apart hstep => separate_next keeps apart hstep⟩

/-- Whether a section of the only task with a call is apart. -/
def apartAlone (s : AppState) (t : ℕ) : Bool :=
  match s.calls t with
  | .opening r => decide (r.name ∉ s.shared.temporaries)
  | .drawing _ => decide (s.shared.temp + 1 < 2 ^ 64)
  | .creating _ id => (s.shared.folder.entries (temporary id)).isNone
  | _ => true

theorem reachable_alone {t : ℕ} {actions : List Action}
    (h : Reachable (appSystem.restrict Apart) s) (idle : ∀ t', t' ≠ t → s.calls t' = .idle)
    (hruns : runs advance (fun s e => apartAlone s e.1) s (actions.map (t, ·)) = true) :
    Reachable (appSystem.restrict Apart) (after advance s (actions.map (t, ·))) := by
  refine reachable_after _ (P := fun s => ∀ t', t' ≠ t → s.calls t' = .idle)
    (fun e => .task e.1 e.2) (fun s e u idle he hok hu => ?_) h idle hruns
  obtain ⟨action, -, rfl⟩ := List.mem_map.mp he
  refine ⟨⟨?_, hu⟩, fun t' ht => ?_⟩
  · unfold Apart
    dsimp only
    unfold apartAlone at hok
    dsimp only at hok
    cases hcall : s.calls t with
    | opening r =>
      rw [hcall] at hok
      exact of_decide_eq_true hok
    | drawing w =>
      rw [hcall] at hok
      exact of_decide_eq_true hok
    | creating w id =>
      rw [hcall] at hok
      exact Option.isNone_iff_eq_none.mp hok
    | committing w id =>
      intro t' ht
      rw [idle t' ht]
      exact nofun
    | idle | reading | answered | filling | removing | syncing | ended => trivial
  · rw [calls_step hu ht]
    exact idle t' ht

def writeByte (name : Text) (byte : Char) : List Action :=
  [.write ⟨.directory, name, [byte]⟩, .proceed, .proceed, .transfer 1, .proceed, .proceed, .proceed]

def profile : Text := ['p', 'r', 'o', 'f', 'i', 'l', 'e']

def writeThenRead : List Action := writeByte profile 'a' ++
  [.proceed, .read ⟨.directory, profile⟩, .proceed, .transfer 64, .transfer 64]

theorem written_profile_read : Isolated (after advance started (writeThenRead.map (0, ·))) :=
  (application_data_isolated (reachable_alone (reachable_initial _) (fun _ _ => rfl)
    (by decide +kernel))).1

/-- A value under the name of the second temporary file, and another write after it. -/
def collision : List (ℕ × Action) := (writeByte (temporary 2) 'a').map (0, ·) ++
  [(1, .write ⟨.directory, ['x'], ['b']⟩), (1, .proceed), (1, .proceed)]

/-- The name is valid, and the second write fails where no fault was reported. -/
theorem temporary_name_fails_a_write : ¬∀ s, Reachable appSystem s → Isolated s := by
  intro claim
  have reached : Reachable appSystem (after advance started collision) :=
    reachable_after (fun _ _ => true) (P := fun _ => True) (fun e => .task e.1 e.2)
      (fun _ _ _ _ _ _ hu => ⟨hu, trivial⟩) (reachable_initial _) trivial (by decide +kernel)
  have isolated := claim _ reached
  have hcall : ∃ w, (after advance started collision).calls 1 =
      .ended w false false (.error createFailure) ∧ w.refused = none :=
    ⟨⟨.directory, ['x'], ['b']⟩, rfl, by decide +kernel⟩
  obtain ⟨w, hcall, haccepted⟩ := hcall
  rcases isolated.writes 1 w _ _ _ hcall with ⟨hok, -⟩ | ⟨failure, -, -, hfaulted | hrefused⟩
  · cases hok
  · cases hfaulted
  · cases haccepted.symm.trans hrefused

end Runs

end AppDataRuns
