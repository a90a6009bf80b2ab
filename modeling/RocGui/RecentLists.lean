import RocGui.RecentCalls

/-! The recent list over a whole run: its order, its keys, and the store that it survives in. -/
namespace RecentLists

open FiniteMaps Grants Transitions TextFormats RecentFormats RecentStores RecentCalls
open RecentEntries (EntryKind Unavailable maxEntries)

section Recency

/-- How many places were remembered after this one. -/
def age (recency : List Path) (path : Path) : ℕ :=
  recency.findIdx fun place => SamePath place path

theorem age_cons (recency : List Path) (path p : Path) :
    age (p :: recency) path = if SamePath p path then 0 else age recency path + 1 := by
  rw [age, List.findIdx_cons]
  by_cases h : SamePath p path <;> simp [h, age]

theorem samePath_refl (path : Path) : SamePath path path := Eq.refl _

theorem samePath_symm {a b : Path} (h : SamePath a b) : SamePath b a := Eq.symm h

theorem samePath_trans {a b p : Path} (h : SamePath a b) (k : SamePath b p) : SamePath a p :=
  Eq.trans h k

end Recency

/-- What holds of the list, and of the keys it ever gave. -/
structure ListHolds (store : Store) (recency : List Path) (named : List (UInt64 × Path)) : Prop where
  entries : Entries store.entries
  /-- Most recently remembered first. -/
  ordered : store.entries.Pairwise fun a b => age recency a.path < age recency b.path
  listed : ∀ entry ∈ store.entries, (entry.key, entry.path) ∈ named
  /-- A key names one place. -/
  once : ∀ a ∈ named, ∀ b ∈ named, a.1 = b.1 → SamePath a.2 b.2
  counted : ∀ a ∈ named, a.1 < store.nextKey

/-- The list that every lifecycle of a run without a store starts from. -/
structure Resumes (store : Store) (named : List (UInt64 × Path)) : Prop where
  entries : store.backing = none → Entries store.initial
  listed : store.backing = none → ∀ entry ∈ store.initial, (entry.key, entry.path) ∈ named

section Changes

variable {store store' : Store} {recency : List Path} {named : List (UInt64 × Path)}

/-- What of a store its list depends on. -/
structure SameList (store store' : Store) : Prop where
  entries : store'.entries = store.entries
  nextKey : store'.nextKey = store.nextKey
  backing : store'.backing = store.backing
  initial : store'.initial = store.initial

theorem same_list_countRemember (store : Store) (outcome : Except Unavailable Unit) :
    SameList store (countRemember store outcome) := by
  unfold countRemember
  split <;> exact ⟨rfl, rfl, rfl, rfl⟩

theorem holds_same (h : ListHolds store recency named) (same : SameList store store') :
    ListHolds store' recency named := by
  refine ⟨?_, ?_, ?_, h.once, ?_⟩
  · rw [same.entries]
    exact h.entries
  · rw [same.entries]
    exact h.ordered
  · rw [same.entries]
    exact h.listed
  · rw [same.nextKey]
    exact h.counted

theorem resumes_same (h : Resumes store named) (same : SameList store store') :
    Resumes store' named := by
  refine ⟨fun hnone => ?_, fun hnone => ?_⟩
  · rw [same.initial]
    exact h.entries (same.backing ▸ hnone)
  · rw [same.initial]
    exact h.listed (same.backing ▸ hnone)

theorem entries_sublist {a b : List Entry} (h : Entries b) (sublist : a.Sublist b) : Entries a where
  keys := h.keys.sublist sublist
  paths := h.paths.sublist sublist
  bounded := sublist.length_le.trans h.bounded
  origins entry hentry := h.origins entry (sublist.subset hentry)

theorem holds_sublist (h : ListHolds store recency named) (sublist : store'.entries.Sublist store.entries)
    (hkey : store'.nextKey = store.nextKey) : ListHolds store' recency named where
  entries := entries_sublist h.entries sublist
  ordered := h.ordered.sublist sublist
  listed entry hentry := h.listed entry (sublist.subset hentry)
  once := h.once
  counted := hkey ▸ h.counted

theorem forget_sublist (store : Store) (key : UInt64) :
    (forget store key).2.entries.Sublist store.entries ∧
      (forget store key).2.nextKey = store.nextKey ∧
      (forget store key).2.backing = store.backing ∧
      (forget store key).2.initial = store.initial := by
  unfold forget
  by_cases h : (store.entries.filter (·.key ≠ key)).length = store.entries.length
  · rw [if_pos h]
    exact ⟨List.Sublist.refl _, rfl, rfl, rfl⟩
  · rw [if_neg h]
    exact ⟨List.filter_sublist, rfl, rfl, rfl⟩

theorem holds_forget (h : ListHolds store recency named) (k : Resumes store named) (key : UInt64) :
    ListHolds (forget store key).2 recency named ∧ Resumes (forget store key).2 named := by
  obtain ⟨hsublist, hkey, hbacking, hinitial⟩ := forget_sublist store key
  refine ⟨holds_sublist h hsublist hkey, fun hnone => ?_, fun hnone => ?_⟩
  · rw [hinitial]
    exact k.entries (hbacking ▸ hnone)
  · rw [hinitial]
    exact k.listed (hbacking ▸ hnone)

theorem holds_forget_all (h : ListHolds store recency named) (k : Resumes store named)
    (keys : List UInt64) :
    ListHolds (keys.foldl (fun store key => (forget store key).2) store) recency named ∧
      Resumes (keys.foldl (fun store key => (forget store key).2) store) named := by
  induction keys generalizing store with
  | nil => exact ⟨h, k⟩
  | cons key keys ih =>
    obtain ⟨h, k⟩ := holds_forget h k key
    exact ih h k

theorem ordered_self {entries : List Entry}
    (distinct : entries.Pairwise fun a b => ¬SamePath a.path b.path) :
    entries.Pairwise fun a b =>
      age (entries.map (·.path)) a.path < age (entries.map (·.path)) b.path := by
  induction entries with
  | nil => exact .nil
  | cons entry rest ih =>
    obtain ⟨hfirst, hrest⟩ := List.pairwise_cons.mp distinct
    have later (e : Entry) (he : e ∈ rest) : age ((entry :: rest).map (·.path)) e.path =
        age (rest.map (·.path)) e.path + 1 := by
      rw [List.map_cons, age_cons, if_neg (hfirst e he)]
    refine List.pairwise_cons.mpr ⟨fun e he => ?_, ?_⟩
    · rw [later e he, List.map_cons, age_cons, if_pos (samePath_refl _)]
      omega
    · refine (ih hrest).imp_of_mem fun {a b} ha hb hlt => ?_
      rw [later a ha, later b hb]
      omega

theorem le_max_key (a b : UInt64) : a ≤ max a b := by
  change a ≤ if a ≤ b then b else a
  split
  · assumption
  · exact UInt64.le_refl a

theorem holds_begin (h : ListHolds store recency named) (k : Resumes store named) :
    ListHolds (beginLifecycle store)
      (if store.backing.isNone then store.initial.map (·.path) else recency) named ∧
      Resumes (beginLifecycle store) named := by
  unfold beginLifecycle
  cases hbacking : store.backing with
  | some backing => exact ⟨h, k⟩
  | none =>
    have entries := k.entries hbacking
    refine ⟨⟨entries, ordered_self entries.paths, k.listed hbacking, h.once, fun a ha => ?_⟩,
      fun _ => entries, fun _ => k.listed hbacking⟩
    exact UInt64.lt_of_lt_of_le (h.counted a ha) (le_max_key _ _)

theorem place_cases (store : Store) (kind : EntryKind) (path : Path) (identity : Identity)
    (origin : Origin) :
    (∃ before entry after, store.entries = before ++ entry :: after ∧ SamePath entry.path path ∧
      place store kind path identity origin =
        (⟨entry.key, kind, entry.path, identity, origin⟩, before ++ after, store.nextKey)) ∨
    (∀ entry ∈ store.entries, ¬SamePath entry.path path) ∧
      place store kind path identity origin =
        (⟨store.nextKey, kind, path, identity, origin⟩, store.entries, store.nextKey + 1) := by
  unfold place
  cases hfind : store.entries.find? fun entry => SamePath entry.path path with
  | some entry =>
    obtain ⟨hsame, before, after, hsplit, hbefore⟩ := List.find?_eq_some_iff_append.mp hfind
    refine .inl ⟨before, entry, after, hsplit, of_decide_eq_true hsame, ?_⟩
    have herase : (store.entries.eraseP fun entry => SamePath entry.path path) = before ++ after := by
      rw [hsplit, List.eraseP_append_right _ fun b hb => by simpa using hbefore b hb,
        List.eraseP_cons, hsame, cond_true]
    rw [herase]
  | none =>
    refine .inr ⟨fun entry hentry hsame => ?_, rfl⟩
    exact List.find?_eq_none.mp hfind entry hentry (decide_eq_true hsame)

theorem ordered_cons {entry : Entry} {others : List Entry} {path : Path}
    (hsame : SamePath path entry.path) (hne : ∀ e ∈ others, ¬SamePath path e.path)
    (h : others.Pairwise fun a b => age recency a.path < age recency b.path) :
    (entry :: others).Pairwise fun a b =>
      age (path :: recency) a.path < age (path :: recency) b.path := by
  have later (e : Entry) (he : e ∈ others) : age (path :: recency) e.path = age recency e.path + 1 := by
    rw [age_cons, if_neg (hne e he)]
  refine List.pairwise_cons.mpr ⟨fun e he => ?_, ?_⟩
  · rw [later e he, age_cons, if_pos hsame]
    omega
  · refine h.imp_of_mem fun {a b} ha hb hlt => ?_
    rw [later a ha, later b hb]
    omega

/-- Whether the key of a new entry can still be counted past. -/
def Counts (store : Store) (path : Path) : Prop :=
  (∀ entry ∈ store.entries, ¬SamePath entry.path path) → store.nextKey.toNat + 1 < UInt64.size

theorem holds_front (h : ListHolds store recency named) {entry : Entry} {others : List Entry}
    {path : Path} (hothers : others.Sublist store.entries)
    (hkeys : ∀ e ∈ others, entry.key ≠ e.key) (hpaths : ∀ e ∈ others, ¬SamePath entry.path e.path)
    (horigin : entry.origin ≠ .automatic) (hsame : SamePath entry.path path)
    (hname : ∀ a ∈ named, entry.key = a.1 → SamePath path a.2)
    (hlisted : (entry.key, entry.path) ∈ (entry.key, path) :: named)
    (hnew : entry.key < store'.nextKey) (hold : ∀ a ∈ named, a.1 < store'.nextKey)
    (hstore : store'.entries = (entry :: others).take maxEntries) :
    ListHolds store' (path :: recency) ((entry.key, path) :: named) where
  entries := by
    rw [hstore]
    have kept := entries_sublist h.entries hothers
    refine ⟨?_, ?_, List.length_take_le _ _, fun e he => ?_⟩
    · exact (List.pairwise_cons.mpr ⟨hkeys, kept.keys⟩).sublist (List.take_sublist _ _)
    · exact (List.pairwise_cons.mpr ⟨hpaths, kept.paths⟩).sublist (List.take_sublist _ _)
    · rcases List.mem_cons.mp (List.mem_of_mem_take he) with rfl | he
      · exact horigin
      · exact kept.origins e he
  ordered := by
    rw [hstore]
    refine List.Pairwise.sublist (List.take_sublist _ _) (ordered_cons (samePath_symm hsame) ?_ ?_)
    · exact fun e he k => hpaths e he (samePath_trans hsame k)
    · exact h.ordered.sublist hothers
  listed e he := by
    rw [hstore] at he
    rcases List.mem_cons.mp (List.mem_of_mem_take he) with rfl | he
    · exact hlisted
    · exact List.mem_cons_of_mem _ (h.listed e (hothers.subset he))
  once a ha b hb heq := by
    rcases List.mem_cons.mp ha with rfl | ha <;> rcases List.mem_cons.mp hb with rfl | hb
    · exact samePath_refl _
    · exact hname b hb heq
    · exact samePath_symm (hname a ha heq.symm)
    · exact h.once a ha b hb heq
  counted a ha := by
    rcases List.mem_cons.mp ha with rfl | ha
    · exact hnew
    · exact hold a ha

theorem holds_commit (h : ListHolds store recency named) (id : GrantId) (kind : EntryKind)
    (path : Path) (identity : Identity) (origin : Origin) (horigin : origin ≠ .automatic)
    (counts : Counts store path) :
    ListHolds (commitRemember store id kind path identity origin).2 (path :: recency)
      (((place store kind path identity origin).1.key, path) :: named) := by
  rcases place_cases store kind path identity origin with
    ⟨before, entry, after, hsplit, hsame, hplace⟩ | ⟨hnone, hplace⟩
  · have hperm : (entry :: (before ++ after)).Perm store.entries := by
      rw [hsplit]
      exact List.perm_middle.symm
    have hentry : entry ∈ store.entries := hperm.subset List.mem_cons_self
    have hkeys := (hperm.pairwise_iff fun {a b} hne => hne.symm).mpr h.entries.keys
    have hpaths := (hperm.pairwise_iff fun {a b} hne k => hne (samePath_symm k)).mpr h.entries.paths
    have hothers : (before ++ after).Sublist store.entries := by
      rw [hsplit]
      exact List.Sublist.append_left (List.sublist_cons_self _ _) _
    have hname := h.listed entry hentry
    rw [commitRemember, hplace]
    exact holds_front h hothers (List.pairwise_cons.mp hkeys).1 (List.pairwise_cons.mp hpaths).1
      horigin hsame (fun a ha heq => samePath_trans (samePath_symm hsame) (h.once _ hname a ha heq))
      (List.mem_cons_of_mem _ hname) (h.counted _ hname) h.counted rfl
  · have hnext : (store.nextKey + 1).toNat = store.nextKey.toNat + 1 := by
      rw [UInt64.toNat_add]
      exact Nat.mod_eq_of_lt (counts hnone)
    have hnew : store.nextKey < store.nextKey + 1 := by
      rw [UInt64.lt_iff_toNat_lt, hnext]
      omega
    have fresh (a : UInt64 × Path) (ha : a ∈ named) : store.nextKey ≠ a.1 := by
      intro heq
      have := h.counted a ha
      rw [← heq] at this
      exact UInt64.lt_irrefl _ this
    rw [commitRemember, hplace]
    exact holds_front h (List.Sublist.refl _) (fun e he => fresh _ (h.listed e he))
      (fun e he k => hnone e he (samePath_symm k)) horigin (samePath_refl _)
      (fun a ha heq => absurd heq (fresh a ha)) List.mem_cons_self hnew
      (fun a ha => UInt64.lt_trans (h.counted a ha) hnew) rfl

theorem counts_of_holds {id : GrantId} {kind : EntryKind} {path : Path} {identity : Identity}
    {origin : Origin}
    (h : ListHolds (commitRemember store id kind path identity origin).2 (path :: recency)
      (((place store kind path identity origin).1.key, path) :: named)) : Counts store path := by
  intro hnone
  have hplace := (place_cases store kind path identity origin).resolve_left
    fun ⟨before, entry, after, hsplit, hsame, _⟩ => hnone entry (by simp [hsplit]) hsame
  have hlt := h.counted _ List.mem_cons_self
  rw [commitRemember, hplace.2] at hlt
  have hwrap : store.nextKey.toNat < (store.nextKey + 1).toNat := UInt64.lt_iff_toNat_lt.mp hlt
  rw [UInt64.toNat_add] at hwrap
  have hbound := store.nextKey.toNat_lt
  change store.nextKey.toNat < (store.nextKey.toNat + 1) % 2 ^ 64 at hwrap
  change store.nextKey.toNat + 1 < 2 ^ 64
  omega

end Changes

section Starts

variable {files : Files} {backing : Option Path} {seeds : List Path} {store : Store}
  {entries : List Entry}

theorem le_max_key_right (a b : UInt64) : b ≤ max a b := by
  change b ≤ if a ≤ b then b else a
  split
  · exact UInt64.le_refl b
  · rename_i h
    exact (UInt64.le_total b a).resolve_right h

theorem largest_le (key : UInt64) :
    key ≤ entries.foldl (fun key entry => max key entry.key) key ∧
      ∀ e ∈ entries, e.key ≤ entries.foldl (fun key entry => max key entry.key) key := by
  induction entries generalizing key with
  | nil => exact ⟨UInt64.le_refl key, fun e he => by cases he⟩
  | cons entry rest ih =>
    rw [List.foldl_cons]
    obtain ⟨hfirst, hrest⟩ := ih (max key entry.key)
    refine ⟨UInt64.le_trans (le_max_key _ _) hfirst, fun e he => ?_⟩
    rcases List.mem_cons.mp he with rfl | he
    · exact UInt64.le_trans (le_max_key_right _ _) hfirst
    · exact hrest e he

theorem largest_mem (entries : List Entry) (key : UInt64) :
    entries.foldl (fun key entry => max key entry.key) key = key ∨
      ∃ e ∈ entries, entries.foldl (fun key entry => max key entry.key) key = e.key := by
  induction entries generalizing key with
  | nil => exact .inl rfl
  | cons entry rest ih =>
    rw [List.foldl_cons]
    rcases ih (max key entry.key) with heq | ⟨e, he, heq⟩
    · by_cases hle : key ≤ entry.key
      · exact .inr ⟨entry, List.mem_cons_self, heq.trans (if_pos hle)⟩
      · exact .inl (heq.trans (if_neg hle))
    · exact .inr ⟨e, List.mem_cons_of_mem _ he, heq⟩

/-- Whether every key of a list can be counted past. -/
def KeysCount (entries : List Entry) : Prop := ∀ e ∈ entries, e.key.toNat + 1 < UInt64.size

theorem keyAfter_above (h : KeysCount entries) {e : Entry} (he : e ∈ entries) :
    e.key < keyAfter entries := by
  have hle := (largest_le 0).2 e he
  have hcount : (largestKey entries).toNat + 1 < UInt64.size := by
    rcases largest_mem entries 0 with heq | ⟨e, he, heq⟩
    · rw [largestKey, heq]
      decide
    · rw [largestKey, heq]
      exact h e he
  rw [keyAfter, UInt64.lt_iff_toNat_lt, UInt64.toNat_add]
  have hmod : ((largestKey entries).toNat + (1 : UInt64).toNat) % 2 ^ 64 =
      (largestKey entries).toNat + 1 := Nat.mod_eq_of_lt hcount
  rw [hmod]
  have hle : e.key.toNat ≤ (largestKey entries).toNat := UInt64.le_iff_toNat_le.mp hle
  omega

theorem distinct_readSeeds {index : ℕ} {read : List Entry} (fits : index + seeds.length < 2 ^ 63)
    (distinct : Distinct read) (keys : ∀ e ∈ read, e.key.toNat ≤ index)
    (h : readSeeds files index read seeds = .ok entries) :
    Distinct entries ∧ KeysCount entries := by
  induction seeds generalizing index read with
  | nil =>
    obtain rfl := Except.ok.inj h
    refine ⟨distinct, fun e he => ?_⟩
    have := keys e he
    change e.key.toNat + 1 < 2 ^ 64
    omega
  | cons seed seeds ih =>
    rw [List.length_cons] at fits
    rw [readSeeds] at h
    split at h
    · cases h
    · rename_i path kind identity _
      split at h
      · refine ih (by omega) distinct (fun e he => ?_) h
        have := keys e he
        omega
      · rename_i hnew
        have hindex : index < UInt64.size := by
          change index < 2 ^ 64
          omega
        have hkey : (UInt64.ofNat index + 1).toNat = index + 1 := by
          rw [UInt64.toNat_add, UInt64.toNat_ofNat_of_lt' hindex]
          exact Nat.mod_eq_of_lt (show index + 1 < 2 ^ 64 by omega)
        have hpath : ∀ e ∈ read, ¬SamePath e.path path := by
          intro e he hsame
          exact hnew (List.any_eq_true.mpr ⟨e, he, decide_eq_true hsame⟩)
        refine ih (by omega) ⟨?_, ?_, fun e he => ?_⟩ (fun e he => ?_) h
        · refine List.pairwise_append.mpr ⟨distinct.keys, List.pairwise_singleton _ _, ?_⟩
          rintro a ha b hb heq
          rw [List.mem_singleton.mp hb] at heq
          have hle := keys a ha
          rw [heq] at hle
          change (UInt64.ofNat index + 1).toNat ≤ index at hle
          omega
        · exact List.pairwise_append.mpr ⟨distinct.paths, List.pairwise_singleton _ _,
            fun a ha b hb => List.mem_singleton.mp hb ▸ hpath a ha⟩
        · rcases List.mem_append.mp he with he | he
          · exact distinct.origins e he
          · rw [List.mem_singleton.mp he]
            exact fun h => by cases h
        · rcases List.mem_append.mp he with he | he
          · have := keys e he
            omega
          · rw [List.mem_singleton.mp he]
            exact hkey.le

theorem entries_configure (fits : seeds.length < 2 ^ 63)
    (h : configure files backing seeds = .ok store) : Entries store.entries := by
  have empty : Entries [] := ⟨.nil, .nil, Nat.zero_le _, fun _ h => by cases h⟩
  unfold configure at h
  split at h
  · obtain rfl := Except.ok.inj h
    cases backing with
    | none => exact empty
    | some path =>
      change Entries (load files path)
      unfold load
      cases files.read path with
      | none => exact empty
      | some text => exact entries_decode text
  · split at h
    · cases h
    · rename_i entries hread
      obtain rfl := Except.ok.inj h
      obtain ⟨distinct, -⟩ := distinct_readSeeds (by omega)
        ⟨.nil, .nil, fun _ h => by cases h⟩ (fun _ h => by cases h) hread
      exact ⟨distinct.keys.sublist (List.take_sublist _ _),
        distinct.paths.sublist (List.take_sublist _ _), List.length_take_le _ _,
        fun e he => distinct.origins e (List.mem_of_mem_take he)⟩

theorem configure_eq (h : configure files backing seeds = .ok store) :
    ∃ entries backing, store = configured entries backing := by
  unfold configure at h
  split at h
  · exact ⟨_, _, (Except.ok.inj h).symm⟩
  · split at h
    · cases h
    · exact ⟨_, _, (Except.ok.inj h).symm⟩

end Starts

section Runs

variable {s : CallState} {e : CallEvent} {files : Files} {backing : Option Path}
  {seeds : List Path} {store : Store}

structure Lists (s : CallState) : Prop where
  holds : ListHolds s.store s.recency s.named
  resumes : Resumes s.store s.named

theorem lists_configured {entries : List Entry} (h : Entries entries) (count : KeysCount entries) :
    Lists (started (configured entries backing)) where
  holds := by
    refine ⟨h, ordered_self h.paths, fun e he => List.mem_map_of_mem he, ?_, ?_⟩
    · intro a ha b hb heq
      obtain ⟨x, hx, rfl⟩ := List.mem_map.mp ha
      obtain ⟨y, hy, rfl⟩ := List.mem_map.mp hb
      have keys : (entries.map (·.key)).Nodup := List.pairwise_map.mpr h.keys
      rw [List.inj_on_of_nodup_map keys hx hy heq]
      exact samePath_refl _
    · intro a ha
      obtain ⟨x, hx, rfl⟩ := List.mem_map.mp ha
      exact keyAfter_above count hx
  resumes := by
    refine ⟨fun hnone => ?_, fun hnone e he => ?_⟩
    · change backing = none at hnone
      simpa [started, configured, hnone] using h
    · change backing = none at hnone
      refine List.mem_map_of_mem ?_
      simpa [started, configured, hnone] using he

/-- The next key can be counted past when a `remember` adds an entry. -/
def KeysLast (s : CallState) : CallEvent → Prop
  | .remember kind number metadata => ∀ held entryKind path identity,
      (Grants.remember kind number s.grants.registry).1 = .ok held →
      locate s metadata held.id = .ok (entryKind, path, identity) → Counts s.store path
  | _ => True

theorem remember_origin {kind : Kind} {number : ℕ} {registry : Registry} {held : Grant}
    (h : (Grants.remember kind number registry).1 = .ok held) : held.origin ≠ .automatic := by
  unfold Grants.remember at h
  split at h
  · cases h
  · split at h
    · cases h
    · split at h
      · cases h
      · rename_i hroot
        obtain rfl := Except.ok.inj h
        rw [not_or] at hroot
        exact hroot.2

theorem lists_same {store' : Store} (h : Lists s) (same : SameList s.store store')
    {t : CallState} (hstore : t.store = store') (hrecency : t.recency = s.recency)
    (hnamed : t.named = s.named) : Lists t := by
  refine ⟨?_, ?_⟩
  · rw [hstore, hrecency, hnamed]
    exact holds_same h.holds same
  · rw [hstore, hnamed]
    exact resumes_same h.resumes same

theorem lists_refuse {reason : Unavailable} {grants : GrantRuns.GrantState} (h : Lists s) :
    Lists (refuse { s with grants := grants } reason) := by
  have same : SameList s.store (refuse { s with grants := grants } reason).store :=
    same_list_countRemember s.store (.error reason)
  exact lists_same h same rfl rfl rfl

theorem lists_forgetWithdrawn {grants : GrantRuns.GrantState} (h : Lists s) :
    Lists (forgetWithdrawn { s with grants := grants }) := by
  obtain ⟨holds, resumes⟩ := holds_forget_all h.holds h.resumes
    (heldKeys s.store grants.registry.withdrawnRemembered)
  exact ⟨holds, resumes⟩

theorem lists_step (h : Lists s) (last : KeysLast s e) : Lists (next s e) := by
  have unchanged {t : CallState} (hstore : SameList s.store t.store) (hrecency : t.recency = s.recency)
      (hnamed : t.named = s.named) : Lists t := lists_same h hstore rfl hrecency hnamed
  cases e with
  | choose | provide | accept | derive | release => exact unchanged ⟨rfl, rfl, rfl, rfl⟩ rfl rfl
  | remember kind number metadata =>
    rw [next]
    rcases remember_cases s kind number metadata with
      ⟨refusal, -, heq⟩ | ⟨held, reason, -, -, heq⟩ |
      ⟨held, entryKind, path, identity, hok, hlocate, heq⟩
    · rw [heq]
      exact lists_refuse h
    · rw [heq]
      exact lists_refuse h
    · rw [heq]
      have holds := holds_commit h.holds held.id entryKind path identity held.origin
        (remember_origin hok) (last held entryKind path identity hok hlocate)
      have same : SameList (commitRemember s.store held.id entryKind path identity held.origin).2
          (RecentCalls.keep { s with grants := GrantRuns.next s.grants (.remember kind number) } held
            entryKind path identity).store := same_list_countRemember _ (.ok ())
      refine ⟨holds_same holds same, ?_⟩
      refine ⟨h.resumes.entries, fun hnone entry hentry => ?_⟩
      exact List.mem_cons_of_mem _ (h.resumes.listed hnone entry hentry)
  | reopen key entryKind check opened =>
    rw [next]
    rcases reopen_cases s key entryKind check opened with heq | heq | ⟨entry, kind, number, rights, -, -, heq⟩
    · rw [heq]
      exact h
    · rw [heq]
      exact unchanged ⟨rfl, rfl, rfl, rfl⟩ rfl rfl
    · rw [heq]
      exact unchanged ⟨rfl, rfl, rfl, rfl⟩ rfl rfl
  | forget key =>
    obtain ⟨holds, resumes⟩ := holds_forget h.holds h.resumes key
    exact ⟨holds, resumes⟩
  | revoke | revokeKind => exact lists_forgetWithdrawn h
  | beginLifecycle =>
    obtain ⟨holds, resumes⟩ := holds_begin h.holds h.resumes
    exact ⟨holds, resumes⟩

/-- No other keys do: a list whose keys cannot all be counted past starts wrong. -/
theorem lists_start_iff {entries : List Entry} (h : Entries entries) :
    Lists (started (configured entries backing)) ↔ KeysCount entries := by
  refine ⟨fun k e he => ?_, lists_configured h⟩
  have hlt : e.key < keyAfter entries := k.holds.counted _ (k.holds.listed e he)
  have hbound := (keyAfter entries).toNat_lt
  rw [UInt64.lt_iff_toNat_lt] at hlt
  change e.key.toNat + 1 < 2 ^ 64
  omega

theorem lists_step_iff (h : Lists s) : Lists (next s e) ↔ KeysLast s e := by
  refine ⟨fun k => ?_, lists_step h⟩
  cases e with
  | remember kind number metadata =>
    intro held entryKind path identity hok hlocate
    rcases remember_cases s kind number metadata with
      ⟨refusal, herror, -⟩ | ⟨held', reason, hok', herror, -⟩ |
      ⟨held', entryKind', path', identity', hok', hlocate', heq⟩
    · cases herror.symm.trans hok
    · obtain rfl := Except.ok.inj (hok.symm.trans hok')
      cases herror.symm.trans hlocate
    · obtain rfl := Except.ok.inj (hok.symm.trans hok')
      obtain heqs := Except.ok.inj (hlocate.symm.trans hlocate')
      rw [next, heq] at k
      have holds := k.holds
      simp only [Prod.mk.injEq] at heqs
      obtain ⟨rfl, rfl, rfl⟩ := heqs
      have same := same_list_countRemember
        (commitRemember s.store held.id entryKind path identity held.origin).2 (.ok ())
      exact counts_of_holds (holds_same holds ⟨same.entries.symm, same.nextKey.symm,
        same.backing.symm, same.initial.symm⟩)
  | _ => trivial

/-- What the list and its store hold over a run. -/
structure ListKept (s : CallState) : Prop where
  holds : ListHolds s.store s.recency s.named
  stored : decode (encode s.store.entries) = s.store.entries

/-- What the store's format holds of every list. -/
structure FormatKept (entries : List Entry) : Prop where
  stored : decode (encode entries) = entries
  /-- Lines that do not parse, put in anywhere after the header, change nothing. -/
  damaged : ∀ body : List Text, (∀ line ∈ body, '\n' ∉ line) →
    body.filter wellFormed = entries.map entryLine → decode (unlines (header :: body)) = entries

theorem recent_list_kept (fits : seeds.length < 2 ^ 63)
    (start : configure files backing seeds = .ok store) (count : KeysCount store.entries) :
    (∀ s, Reachable ((callSystem store).restrict KeysLast) s → ListKept s) ∧
      ∀ entries, Entries entries → FormatKept entries := by
  refine ⟨fun s reached => ?_, fun entries h => ⟨decode_encode h, fun body => decode_damaged h⟩⟩
  have entries := entries_configure fits start
  obtain ⟨listed, backing, rfl⟩ := configure_eq start
  have lists : Lists s := by
    refine reachable_invariant (S := (callSystem (configured listed backing)).restrict KeysLast)
      (lists_configured entries count) ?_ reached
    rintro s e t h ⟨last, -, rfl⟩
    exact lists_step h last
  exact ⟨lists.holds, decode_encode lists.holds.entries⟩

def stored (key : UInt64) : List Entry := [⟨key, .file, [47, 97], ⟨1, 2⟩, .provisioned⟩]

theorem entries_stored (key : UInt64) : Entries (stored key) :=
  ⟨List.pairwise_singleton _ _, List.pairwise_singleton _ _, show 1 ≤ 128 by decide, fun e he => by
    rw [List.mem_singleton.mp he]
    exact fun h => by cases h⟩

def storedFiles (key : UInt64) : Files where
  read _ := some (encode (stored key))
  canonicalize path := .ok path
  metadata _ := .ok (.file, ⟨1, 2⟩)

def recentPath : Path := [47, 114]

theorem configure_stored (key : UInt64) :
    configure (storedFiles key) (some recentPath) [] =
      .ok (configured (stored key) (some recentPath)) := by
  have hload : load (storedFiles key) recentPath = stored key := decode_encode (entries_stored key)
  exact congrArg (fun entries => Except.ok (configured entries (some recentPath))) hload

def chooseFolder : CallEvent :=
  .choose .directory 1 .read (.trustedSelection .consentOnly) .directory [47, 98]

def rememberFolder : CallEvent := .remember .directory 1 fun _ => .ok ⟨1, 3⟩

theorem remembered_folder_kept :
    ListKept (runTrace next (started (configured (stored 7) (some recentPath)))
      [chooseFolder, rememberFolder]) := by
  have count : KeysCount (stored 7) := by
    intro e he
    rw [List.mem_singleton.mp he]
    decide
  have kept := (@recent_list_kept _ _ [] _ (by decide) (configure_stored 7) count).1
  have chosen := reachable_step (reachable_initial ((callSystem (configured (stored 7)
    (some recentPath))).restrict KeysLast)) (e := chooseFolder) ⟨trivial, Finset.notMem_empty _, rfl⟩
  refine kept _ (reachable_step chosen (e := rememberFolder) ⟨?_, trivial, rfl⟩)
  intro held entryKind path identity _ _ _
  decide +kernel

/-- The largest key a store can hold is not counted past: the next one is zero. -/
theorem largest_key_wraps : ¬∀ (files : Files) (backing : Option Path) (seeds : List Path)
    (store : Store), seeds.length < 2 ^ 63 → configure files backing seeds = .ok store →
      (∀ s, Reachable (callSystem store) s → ListKept s) ∧
        ∀ entries, Entries entries → FormatKept entries := by
  intro claim
  have start := configure_stored 18446744073709551615
  have kept := (claim _ _ _ _ (by decide) start).1 _ (reachable_initial _)
  have hlt : (18446744073709551615 : UInt64) < keyAfter (stored 18446744073709551615) :=
    kept.holds.counted _ (kept.holds.listed _ (List.mem_singleton_self _))
  exact absurd hlt (by decide)

end Runs

end RecentLists
