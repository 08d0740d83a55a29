import JwalkMeta.WalkDir.StdListing

/-!
# The metadata of an entry made from its path and of one made from a record

The root and followed links are made by a `stat` on their path (`DirEntry::from_path`), all other
entries from the records of an enumeration (`make_dir_entry_linux`). Both copy the metadata of the
same object. They agree in the type flags, the size, the permissions and the extended metadata, and
differ in the times as the source says it beside each of them: the conversion of the record leaves
out a time before the epoch, and `fstatat` knows no time of birth.

Nothing is said here about the time of change, nor about extended metadata that are asked for
without the metadata.

Source: `src/core/dir_entry.rs`, `src/core/metadata.rs` and `src/lib.rs`.

## Main definitions

* `SameObject`: all calls on an entry tell about one object.
* `MetaData.asListed`: the metadata that the record gives where the path gives these.

## Main results

* `metadata_fromPath_makeDirEntryLinux`: how the metadata of the two entries compare.
-/

namespace JwalkMeta

variable {E : Type}

/-- An answer of `statx` about an object with this `stat` and this time of birth. -/
structure Statx.Describes (statx : Statx) (stat : Stat) (birth : Option StatxTimestamp) :
    Prop where
  inode : SameInode statx stat
  birth : (if statx.stxMask &&& STATX_BTIME != 0 then some statx.stxBtime else none) = birth

/-- All calls on an entry tell about one object: the call on `path`, what was fetched in advance for
the record `info`, and `statx` and `fstatat` relative to the directory. -/
structure SameObject (os : LinuxCalls) (path : Path) (followLink : Bool)
    (info : LinuxDirEntryOwned) (parentPath : Path) (stat : Stat)
    (birth : Option StatxTimestamp) : Prop where
  onPath : (if followLink then os.metadata path else os.symlinkMetadata path) =
    .ok (stat.stdMetadata (birth.map StatxTimestamp.systemTime))
  fetched : ∀ statx, info.statx = some statx → statx.Describes stat birth
  statx : ∀ statx, statxMetadata os parentPath info.name = .ok statx → statx.Describes stat birth
  fstatat : ∀ answer, fstatatMetadata os parentPath info.name = .ok answer → answer = stat
  /-- The nanoseconds of its times are less than a second. -/
  nanoseconds : Nanoseconds stat.stCtimeNsec ∧ Nanoseconds stat.stMtimeNsec ∧
    Nanoseconds stat.stAtimeNsec ∧ ∀ ts ∈ birth, ts.tvNsec.toNat < 1000000000

/-- Whether `statx` answers about a record, in advance or when it is called. -/
def answersStatx (os : LinuxCalls) (info : LinuxDirEntryOwned) (parentPath : Path) : Bool :=
  info.statx.isSome || (statxMetadata os parentPath info.name).toOption.isSome

/-- Metadata without the time of change. -/
def MetaData.withoutChanged (metadata : MetaData) : MetaData := { metadata with changed := none }

/-- The metadata that a record gives where the path gives these, but for the time of change. -/
def MetaData.asListed (byStatx : Bool) (metadata : MetaData) : MetaData :=
  { metadata.sinceEpoch with
    created := if byStatx then JwalkMeta.sinceEpoch metadata.created else none }

theorem statxTimeToSystemtime_eq_sinceEpoch {ts : StatxTimestamp}
    (h : ts.tvNsec.toNat < 1000000000) :
    statxTimeToSystemtime ts = sinceEpoch (some ts.systemTime) := by
  have hnsec : (Int64.ofNat ts.tvNsec.toNat).toInt = ts.tvNsec.toNat :=
    Int64.toInt_ofNat_of_lt (by omega)
  have hsame : SameTime ts.tvSec (Int64.ofNat ts.tvNsec.toNat) ts := ⟨rfl, hnsec⟩
  rw [statxTimeToSystemtime_eq hsame, timeToSystemtime_eq (by rw [Nanoseconds, hnsec]; omega),
    hnsec]
  rfl

section SameObject

variable {os : LinuxCalls} {path parentPath : Path} {followLink : Bool} {info : LinuxDirEntryOwned}
  {stat : Stat} {birth : Option StatxTimestamp} {statx : Statx}

/-- The metadata that the path gives. -/
def Stat.pathMetaData (stat : Stat) (birth : Option StatxTimestamp) : MetaData :=
  .fromFsMetadata (stat.stdMetadata (birth.map StatxTimestamp.systemTime))

theorem SameObject.metaData_stat (h : SameObject os path followLink info parentPath stat birth) :
    stat.metaData.withoutChanged =
      ((stat.pathMetaData birth).asListed false).withoutChanged := by
  obtain ⟨-, hmodified, haccessed, -⟩ := h.nanoseconds
  exact compared_stdMetadata hmodified haccessed (birth.map StatxTimestamp.systemTime)

theorem SameObject.created_statx (h : SameObject os path followLink info parentPath stat birth)
    (hstatx : statx.Describes stat birth) :
    statx.metaData.created = sinceEpoch (birth.map StatxTimestamp.systemTime) := by
  obtain ⟨-, -, -, hbirth⟩ := h.nanoseconds
  rw [Statx.metaData]
  by_cases hmask : (statx.stxMask &&& STATX_BTIME != 0) = true
  · have hsome : some statx.stxBtime = birth := by simpa only [hmask, ↓reduceIte] using hstatx.birth
    simp only [hmask, ↓reduceIte, ← hsome, Option.map_some]
    exact statxTimeToSystemtime_eq_sinceEpoch (hbirth _ hsome.symm)
  · have hnone : none = birth := by
      simpa only [hmask, Bool.false_eq_true, ↓reduceIte] using hstatx.birth
    simp only [hmask, Bool.false_eq_true, ↓reduceIte, ← hnone, Option.map_none]
    rfl

theorem SameObject.metaData_statx (h : SameObject os path followLink info parentPath stat birth)
    (hstatx : statx.Describes stat birth) :
    statx.metaData.withoutChanged = ((stat.pathMetaData birth).asListed true).withoutChanged := by
  have hsame : { statx.metaData.withoutChanged with created := none } =
      { stat.metaData.withoutChanged with created := none } :=
    congrArg MetaData.withoutChanged hstatx.inode.metaData_eq
  rw [h.metaData_stat] at hsame
  calc statx.metaData.withoutChanged
      = { { statx.metaData.withoutChanged with created := none } with
          created := statx.metaData.created } := rfl
    _ = { ((stat.pathMetaData birth).asListed false).withoutChanged with
          created := sinceEpoch (birth.map StatxTimestamp.systemTime) } := by
        rw [hsame, h.created_statx hstatx]
    _ = ((stat.pathMetaData birth).asListed true).withoutChanged := rfl

/-- What the calls on a record find, if one of them succeeds. -/
theorem SameObject.statOf_eq (h : SameObject os path followLink info parentPath stat birth)
    (hanswered : (statOf os info parentPath true).isSome) :
    ∃ mode metadata, statOf os info parentPath true = some (mode, metadata, stat.metaDataExt) ∧
      metadata.withoutChanged =
        ((stat.pathMetaData birth).asListed (answersStatx os info parentPath)).withoutChanged := by
  cases hfetched : info.statx with
  | some statx =>
    have hdescribes := h.fetched statx hfetched
    refine ⟨statx.mode, statx.metaData, ?_, ?_⟩
    · simp [statOf, tryFillFromStatx_eq, hfetched, hdescribes.inode.metaDataExt_eq]
    · rw [h.metaData_statx hdescribes, answersStatx, hfetched, Option.isSome_some, Bool.true_or]
  | none =>
    cases hstatx : statxMetadata os parentPath info.name with
    | ok statx =>
      have hdescribes := h.statx statx hstatx
      refine ⟨statx.mode, statx.metaData, ?_, ?_⟩
      · simp [statOf, tryFillFromStatx_eq, hfetched, hstatx, hdescribes.inode.metaDataExt_eq]
      · rw [h.metaData_statx hdescribes, answersStatx, hfetched, hstatx]
        rfl
    | error err =>
      cases hfstatat : fstatatMetadata os parentPath info.name with
      | ok answer =>
        obtain rfl := h.fstatat answer hfstatat
        refine ⟨answer.stMode, answer.metaData, ?_, ?_⟩
        · simp [statOf, tryFillFromStatx_eq, hfetched, hstatx, hfstatat]
        · rw [h.metaData_stat, answersStatx, hfetched, hstatx]
          rfl
      | error err' => simp [statOf, tryFillFromStatx_eq, hfetched, hstatx, hfstatat] at hanswered

end SameObject

/-- **The metadata of one object, by its path and by its record.** Both entries have metadata if
they are asked for, and those of the record are those of the path but for the times: those before
the epoch are missing, as is the time of birth where `statx` does not answer. The extended metadata
are the same if they come with the metadata. -/
theorem metadata_fromPath_makeDirEntryLinux [Inhabited E] (os : LinuxCalls) (path : Path)
    (followLink : Bool) (info : LinuxDirEntryOwned) (parentPath : Path) (stat : Stat)
    (birth : Option StatxTimestamp)
    (hobject : SameObject os path followLink info parentPath stat birth)
    (hknown : (fileTypeFromDtype info.dType).isSome)
    (hanswered : (statOf os info parentPath true).isSome) (depth depth' : ℕ)
    (readMetadata readMetadataExt : Bool) (ancestors ancestors' : Option (List AncestorIdentity)) :
    ∃ entry : DirEntry E,
      DirEntry.fromPath os.toSystemCalls depth path readMetadata readMetadataExt followLink
        ancestors = .ok entry ∧
      entry.metadata.isSome = readMetadata ∧
      (makeDirEntryLinux (E := E) os info depth' parentPath readMetadata readMetadataExt
          ancestors').metadata.map MetaData.withoutChanged =
        (entry.metadata.map (MetaData.asListed (answersStatx os info parentPath))).map
          MetaData.withoutChanged ∧
      (readMetadata = true ∨ readMetadataExt = false →
        (makeDirEntryLinux (E := E) os info depth' parentPath readMetadata readMetadataExt
          ancestors').metadataExt = entry.metadataExt) := by
  obtain ⟨fileType, hfileType⟩ := Option.isSome_iff_exists.mp hknown
  obtain ⟨mode, metadata, hstatOf, hmetadata⟩ := hobject.statOf_eq hanswered
  refine ⟨_, by simp only [DirEntry.fromPath, hobject.onPath]; rfl, ?_, ?_, ?_⟩
  · cases readMetadata <;> rfl
  · rw [makeDirEntryLinux_of_known os hfileType]
    cases readMetadata with
    | false => rfl
    | true =>
      simp only [DirEntry.fromRaw, ↓reduceIte, Bool.true_or, hstatOf, Option.map_some, hmetadata]
      rfl
  · rintro hext
    rw [makeDirEntryLinux_of_known os hfileType]
    cases readMetadataExt with
    | false => simp [DirEntry.fromRaw]
    | true =>
      obtain rfl : readMetadata = true := by simpa using hext
      simp only [DirEntry.fromRaw, ↓reduceIte, Bool.true_or, hstatOf, Option.map_some,
        Bool.and_self]
      rfl

/-- A file that was modified one second before the epoch. -/
def ancientStatx : Statx := { fileStatx with stxMtime := ⟨-1, 0⟩ }

/-- The answer of `fstatat` about it. -/
def ancientStat : Stat := { fileStat with stMtime := -1 }

/-- A Linux where every path and every entry is this file. -/
def ancientLinux : LinuxCalls :=
  { fileLinux with
    metadata := fun _ => .ok (ancientStat.stdMetadata (some ⟨0, 0⟩))
    symlinkMetadata := fun _ => .ok (ancientStat.stdMetadata (some ⟨0, 0⟩))
    statx := fun _ _ => .ok ancientStatx
    fstatat := fun _ _ => .ok ancientStat }

theorem sameObject_ancient :
    SameObject ancientLinux ⟨[.normal [97]]⟩ false ⟨8, [97], none⟩ ⟨[]⟩ ancientStat
      (some ⟨0, 0⟩) where
  onPath := rfl
  fetched := by simp
  statx := by
    rintro statx hstatx
    obtain rfl : ancientStatx = statx := Except.ok.inj hstatx
    exact ⟨{ sameInode_file with mtime := ⟨rfl, rfl⟩ }, rfl⟩
  fstatat := fun answer hanswer => (Except.ok.inj hanswer).symm
  nanoseconds := by
    refine ⟨⟨?_, ?_⟩, ⟨?_, ?_⟩, ⟨?_, ?_⟩, ?_⟩ <;> decide

/-- The statement above for this file. -/
theorem metadata_fromPath_makeDirEntryLinux_ancient :
    ∃ entry : DirEntry Unit,
      DirEntry.fromPath ancientLinux.toSystemCalls 0 ⟨[.normal [97]]⟩ true true false none =
        .ok entry ∧
      entry.metadata.isSome = true ∧
      (makeDirEntryLinux (E := Unit) ancientLinux ⟨8, [97], none⟩ 1 ⟨[]⟩ true true
          none).metadata.map MetaData.withoutChanged =
        (entry.metadata.map
          (MetaData.asListed (answersStatx ancientLinux ⟨8, [97], none⟩ ⟨[]⟩))).map
          MetaData.withoutChanged ∧
      (makeDirEntryLinux (E := Unit) ancientLinux ⟨8, [97], none⟩ 1 ⟨[]⟩ true true
        none).metadataExt = entry.metadataExt := by
  obtain ⟨entry, hentry, hmetadata, hlisted, hext⟩ :=
    metadata_fromPath_makeDirEntryLinux (E := Unit) ancientLinux ⟨[.normal [97]]⟩ false
      ⟨8, [97], none⟩ ⟨[]⟩ ancientStat (some ⟨0, 0⟩) sameObject_ancient rfl rfl 0 1 true true none
      none
  exact ⟨entry, hentry, hmetadata, hlisted, hext (Or.inl rfl)⟩

/-- The two entries of this file do not have the same metadata: only the one made from its path has
the time of its modification. -/
theorem not_sameMetadata :
    ¬ ∀ (os : LinuxCalls) (path : Path) (followLink : Bool) (info : LinuxDirEntryOwned)
      (parentPath : Path) (stat : Stat) (birth : Option StatxTimestamp),
      SameObject os path followLink info parentPath stat birth →
      (fileTypeFromDtype info.dType).isSome → (statOf os info parentPath true).isSome →
      ∀ (depth depth' : ℕ) (readMetadata readMetadataExt : Bool)
        (ancestors ancestors' : Option (List AncestorIdentity)), ∃ entry : DirEntry Unit,
        DirEntry.fromPath os.toSystemCalls depth path readMetadata readMetadataExt followLink
          ancestors = .ok entry ∧
        (makeDirEntryLinux (E := Unit) os info depth' parentPath readMetadata readMetadataExt
          ancestors').metadata = entry.metadata ∧
        (makeDirEntryLinux (E := Unit) os info depth' parentPath readMetadata readMetadataExt
          ancestors').metadataExt = entry.metadataExt := by
  rintro h
  obtain ⟨entry, hentry, hmetadata, -⟩ := h _ _ _ _ _ _ _ sameObject_ancient rfl rfl 0 1 true true
    none none
  have hmodified : ((DirEntry.fromPath (E := Unit) ancientLinux.toSystemCalls 0 ⟨[.normal [97]]⟩
      true true false none).toOption.bind fun entry => entry.metadata).bind MetaData.modified =
      some ⟨-1, 0⟩ := rfl
  rw [hentry, Except.toOption, Option.bind_some, ← hmetadata] at hmodified
  have hlisted : (makeDirEntryLinux (E := Unit) ancientLinux ⟨8, [97], none⟩ 1 ⟨[]⟩ true true
      none).metadata.bind MetaData.modified = none := rfl
  rw [hlisted] at hmodified
  cases hmodified

end JwalkMeta
