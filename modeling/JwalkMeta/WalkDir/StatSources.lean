import JwalkMeta.WalkDir.LinuxIoUring

/-!
# The three sources of metadata on Linux

The metadata of an entry come from the batch through `io_uring`, from a `statx` call for the entry,
or from `fstatat`. `make_dir_entry_linux` makes the same entry from all of them; `fstatat` only
knows no time of birth. The conversions differ in the widths of their integers and in the form of
device numbers: `statx` has a major and a minor number, `fstatat` the encoding of both that the
kernel makes.

## Main definitions

* `encodeDev`: how the kernel encodes a device number.
* `SameInode`, `SameInodes`: what is assumed of the kernel.
* `DirEntry.withoutCreated`: an entry without its time of birth.

## Main results

* `toNat_linuxMakedev`: `linux_makedev` is the encoding of the kernel.
* `makeDirEntryLinux_filled`: the batch does not change the entries.
* `stat_sources_agree`: all sources give the same entries.
-/

namespace JwalkMeta

variable {E : Type}

/-! ### Widths -/

/-- A number of 64 bits with a sign that has the value of one without. -/
theorem toUInt64_of_toInt {a : Int64} {n : UInt64} (h : a.toInt = n.toNat) : a.toUInt64 = n := by
  have hvalue : a.toBitVec.toInt = n.toNat := h
  have hcond := BitVec.toInt_eq_toNat_cond a.toBitVec
  have hbits := a.toBitVec.isLt
  have hnat : a.toUInt64.toNat = a.toBitVec.toNat := rfl
  have hlt := n.toNat_lt
  apply UInt64.toNat_inj.mp
  split at hcond <;> omega

/-- Nanoseconds survive the cast to 32 bits. -/
theorem toUInt32_of_toInt {nsec : Int64} {n : UInt32} (h : nsec.toInt = n.toNat) :
    nsec.toUInt64.toUInt32 = n := by
  have hwide : nsec.toUInt64 = n.toUInt64 := toUInt64_of_toInt (by simpa using h)
  rw [hwide]
  exact UInt32.toUInt32_toUInt64 n

/-! ### Device numbers -/

/-- How the kernel encodes a device number: the low byte of the minor number, then the major
number, then the rest of the minor number. -/
def encodeDev (major minor : ℕ) : ℕ := minor % 2 ^ 8 + 2 ^ 8 * major + 2 ^ 20 * (minor / 2 ^ 8)

/-- The mask for all but the low byte. -/
theorem and_highBytes {m : ℕ} (hm : m < 2 ^ 32) : m &&& 0xffffff00 = 2 ^ 8 * (m / 2 ^ 8) := by
  refine Nat.eq_of_testBit_eq fun i => ?_
  rw [Nat.testBit_and, show (0xffffff00 : ℕ) = 2 ^ 8 * (2 ^ 24 - 1) from rfl,
    Nat.testBit_two_pow_mul, Nat.testBit_two_pow_mul, Nat.testBit_div_two_pow,
    Nat.testBit_two_pow_sub_one]
  by_cases hlow : 8 ≤ i
  · rw [Nat.sub_add_cancel hlow]
    by_cases hhigh : i < 32
    · have hi : i - 8 < 24 := by omega
      simp [hlow, hi]
    · have hbit : m.testBit i = false := by
        refine Nat.testBit_lt_two_pow (Nat.lt_of_lt_of_le hm ?_)
        exact Nat.pow_le_pow_right (by omega) (by omega)
      simp [hlow, hbit]
  · simp [hlow]

/-- **`linux_makedev` is the encoding of the kernel**, for the numbers that the kernel has. -/
theorem toNat_linuxMakedev {major minor : UInt32} (hmajor : major.toNat < 2 ^ 12)
    (hminor : minor.toNat < 2 ^ 20) :
    (linuxMakedev major minor).toNat = encodeDev major.toNat minor.toNat := by
  have hmajorLow : major.toNat &&& 0xfff = major.toNat := by
    rw [show (0xfff : ℕ) = 2 ^ 12 - 1 from rfl, Nat.and_two_pow_sub_one_eq_mod,
      Nat.mod_eq_of_lt hmajor]
  have hmajorHigh : major.toNat &&& 0xfffff000 = 0 := by
    rw [← hmajorLow, Nat.and_assoc]
    exact Nat.and_zero _
  have hminorLow : minor.toNat &&& 0xff = minor.toNat % 2 ^ 8 := by
    rw [show (0xff : ℕ) = 2 ^ 8 - 1 from rfl, Nat.and_two_pow_sub_one_eq_mod]
  have hminorHigh : minor.toNat &&& 0xffffff00 = 2 ^ 8 * (minor.toNat / 2 ^ 8) :=
    and_highBytes (by omega)
  -- the four parts do not overlap, and nothing is shifted out
  have hmajorShift : major.toNat <<< (8 % 64) % 2 ^ 64 = 2 ^ 8 * major.toNat := by
    simp only [Nat.shiftLeft_eq, Nat.reduceMod]
    omega
  have hminorShift : (2 ^ 8 * (minor.toNat / 2 ^ 8)) <<< (12 % 64) % 2 ^ 64 =
      2 ^ 20 * (minor.toNat / 2 ^ 8) := by
    simp only [Nat.shiftLeft_eq, Nat.reduceMod]
    omega
  have hlow : 2 ^ 8 * major.toNat + minor.toNat % 2 ^ 8 < 2 ^ 20 := by omega
  simp only [linuxMakedev, UInt64.toNat_or, UInt64.toNat_and, UInt64.toNat_shiftLeft,
    UInt32.toNat_toUInt64, UInt64.reduceToNat, hmajorLow, hmajorHigh, hminorLow, hminorHigh,
    hmajorShift, hminorShift, Nat.zero_shiftLeft, Nat.zero_mod, Nat.or_zero]
  rw [← Nat.two_pow_add_eq_or_of_lt (by omega), Nat.or_comm, ← Nat.two_pow_add_eq_or_of_lt hlow,
    encodeDev]
  omega

/-! ### What is assumed of the kernel -/

/-- A time of `fstatat` and one of `statx` are the same. -/
def SameTime (sec nsec : Int64) (ts : StatxTimestamp) : Prop :=
  sec = ts.tvSec ∧ nsec.toInt = ts.tvNsec.toNat

/-- A device number of `fstatat` is the encoding of one of `statx`. -/
def EncodesDev (dev : UInt64) (major minor : UInt32) : Prop :=
  major.toNat < 2 ^ 12 ∧ minor.toNat < 2 ^ 20 ∧ dev.toNat = encodeDev major.toNat minor.toNat

/-- Two answers about one inode: the same values, each in its own width. -/
structure SameInode (statx : Statx) (stat : Stat) : Prop where
  mode : stat.stMode.toNat = statx.stxMode.toNat
  size : stat.stSize.toInt = statx.stxSize.toNat
  ctime : SameTime stat.stCtime stat.stCtimeNsec statx.stxCtime
  mtime : SameTime stat.stMtime stat.stMtimeNsec statx.stxMtime
  atime : SameTime stat.stAtime stat.stAtimeNsec statx.stxAtime
  ino : stat.stIno = statx.stxIno
  dev : EncodesDev stat.stDev statx.stxDevMajor statx.stxDevMinor
  nlink : stat.stNlink.toNat = statx.stxNlink.toNat
  blksize : stat.stBlksize.toInt = statx.stxBlksize.toNat
  blocks : stat.stBlocks.toInt = statx.stxBlocks.toNat
  uid : stat.stUid = statx.stxUid
  gid : stat.stGid = statx.stxGid
  rdev : EncodesDev stat.stRdev statx.stxRdevMajor statx.stxRdevMinor

/-- The calls on the entries of a directory see the same inodes. -/
structure SameInodes (os : LinuxCalls) (path : Path) : Prop where
  ok : ∀ name statx, os.statx path name = .ok statx →
    ∃ stat, os.fstatat path name = .ok stat ∧ SameInode statx stat
  error : ∀ name err, os.statx path name = .error err → ∃ err', os.fstatat path name = .error err'

/-- A Linux where `statx` is not available. -/
def LinuxCalls.withoutStatx (os : LinuxCalls) (err : IoError) : LinuxCalls :=
  { os with statx := fun _ _ => .error err }

/-! ### Entries without their time of birth -/

/-- Metadata without the time of birth. -/
def MetaData.withoutCreated (metadata : MetaData) : MetaData := { metadata with created := none }

/-- An entry without its time of birth. -/
def DirEntry.withoutCreated (entry : DirEntry E) : DirEntry E :=
  { entry with metadata := entry.metadata.map MetaData.withoutCreated }

theorem statxTimeToSystemtime_eq {sec nsec : Int64} {ts : StatxTimestamp}
    (h : SameTime sec nsec ts) : statxTimeToSystemtime ts = timeToSystemtime sec nsec := by
  obtain ⟨rfl, hnsec⟩ := h
  rw [statxTimeToSystemtime, timeToSystemtime, toUInt32_of_toInt hnsec]

theorem linuxMakedev_eq {dev : UInt64} {major minor : UInt32} (h : EncodesDev dev major minor) :
    linuxMakedev major minor = dev := by
  obtain ⟨hmajor, hminor, hdev⟩ := h
  exact UInt64.toNat_inj.mp ((toNat_linuxMakedev hmajor hminor).trans hdev.symm)

namespace SameInode

variable {statx : Statx} {stat : Stat}

theorem mode_eq (h : SameInode statx stat) : statx.mode = stat.stMode :=
  UInt32.toNat_inj.mp ((UInt16.toNat_toUInt32 _).trans h.mode.symm)

/-- The metadata are the same but for the time of birth. -/
theorem metaData_eq (h : SameInode statx stat) :
    statx.metaData.withoutCreated = stat.metaData.withoutCreated := by
  simp only [MetaData.withoutCreated, Statx.metaData, Stat.metaData, h.mode_eq,
    statxTimeToSystemtime_eq h.ctime, statxTimeToSystemtime_eq h.mtime,
    statxTimeToSystemtime_eq h.atime, toUInt64_of_toInt h.size]

theorem metaDataExt_eq (h : SameInode statx stat) : statx.metaDataExt = stat.metaDataExt := by
  have hnlink : statx.stxNlink.toUInt64 = stat.stNlink :=
    UInt64.toNat_inj.mp ((UInt32.toNat_toUInt64 _).trans h.nlink.symm)
  have hblksize : stat.stBlksize.toUInt64 = statx.stxBlksize.toUInt64 :=
    toUInt64_of_toInt (by simpa using h.blksize)
  simp only [Statx.metaDataExt, Stat.metaDataExt, h.mode_eq, h.ino, linuxMakedev_eq h.dev, hnlink,
    hblksize, toUInt64_of_toInt h.blocks, h.uid, h.gid, linuxMakedev_eq h.rdev]

end SameInode

/-! ### Entries of all sources -/

section Entries

variable [Inhabited E] {os : LinuxCalls} {path : Path} (depth : ℕ)
  (readMetadata readMetadataExt : Bool) (followLinkAncestors : Option (List AncestorIdentity))

/-- What the calls give for an entry that has been filled is what they give without the batch, if
they are needed at all. -/
theorem statOf_filled {info info' : LinuxDirEntryOwned} (h : FilledFrom os path info info')
    (hfresh : info.statx = none) {needStat : Bool} :
    statOf os info' path needStat = statOf os info path needStat ∨
      needStat = false ∧ statOf os info path needStat = none := by
  rcases h.statx with hnone | ⟨statx, hnul, hstatx, hsome⟩
  · left
    rw [statOf, statOf, tryFillFromStatx_eq, tryFillFromStatx_eq, hnone, h.name]
  · cases needStat with
    | true =>
      left
      simp only [statOf, tryFillFromStatx_eq, hsome, hfresh, Option.map_some, Option.map_none,
        ↓reduceIte, statxMetadata, hnul, Bool.false_eq_true, hstatx]
    | false => exact Or.inr ⟨rfl, by simp [statOf, tryFillFromStatx_eq, hfresh]⟩

/-- **The batch does not change the entry.** -/
theorem makeDirEntryLinux_filled {info info' : LinuxDirEntryOwned}
    (h : FilledFrom os path info info') (hfresh : info.statx = none) :
    makeDirEntryLinux (E := E) os info' depth path readMetadata readMetadataExt
        followLinkAncestors =
      makeDirEntryLinux os info depth path readMetadata readMetadataExt followLinkAncestors := by
  simp only [makeDirEntryLinux, h.dType, h.name]
  rcases statOf_filled h hfresh with hsame | ⟨hneed, hnone⟩
  · rw [hsame]
  · -- nothing is needed, so what was fetched is not used
    rw [hnone]
    simp only [Bool.or_eq_false_iff] at hneed
    obtain ⟨⟨rfl, rfl⟩, hknown⟩ := hneed
    cases statOf os info' path (false || false || info.dType == DT_UNKNOWN) with
    | none => rfl
    | some found => simp [hknown]

/-- Without `statx` the calls give an answer about the same inode, or none in both cases. -/
theorem statOf_withoutStatx (hkernel : SameInodes os path) (err : IoError)
    {info : LinuxDirEntryOwned} (hfresh : info.statx = none) (needStat : Bool) :
    statOf os info path needStat = none ∧ statOf (os.withoutStatx err) info path needStat = none ∨
      ∃ statx stat, SameInode statx stat ∧
        statOf os info path needStat = some (statx.mode, statx.metaData, statx.metaDataExt) ∧
        statOf (os.withoutStatx err) info path needStat =
          some (stat.stMode, stat.metaData, stat.metaDataExt) := by
  have hfilled : tryFillFromStatx info = none := by
    rw [tryFillFromStatx_eq, hfresh, Option.map_none]
  cases needStat with
  | false => exact Or.inl ⟨by simp [statOf, hfilled], by simp [statOf, hfilled]⟩
  | true =>
    cases hnul : hasNul info.name with
    | true =>
      left
      constructor <;> simp [statOf, hfilled, statxMetadata, fstatatMetadata, hnul]
    | false =>
      have hcalls : statxMetadata (os.withoutStatx err) path info.name = .error err ∧
          fstatatMetadata (os.withoutStatx err) path info.name = os.fstatat path info.name := by
        constructor <;> simp [statxMetadata, fstatatMetadata, hnul, LinuxCalls.withoutStatx]
      have hstatx : statxMetadata os path info.name = os.statx path info.name := by
        simp [statxMetadata, hnul]
      have hfstatat : fstatatMetadata os path info.name = os.fstatat path info.name := by
        simp [fstatatMetadata, hnul]
      cases hanswer : os.statx path info.name with
      | ok statx =>
        obtain ⟨stat, hstat, hsame⟩ := hkernel.ok _ _ hanswer
        refine Or.inr ⟨statx, stat, hsame, ?_, ?_⟩
        · simp only [statOf, hfilled, ↓reduceIte, hstatx, hanswer]
        · simp only [statOf, hfilled, ↓reduceIte, hcalls, hstat]
      | error err' =>
        obtain ⟨err'', hstat⟩ := hkernel.error _ _ hanswer
        refine Or.inl ⟨?_, ?_⟩
        · simp only [statOf, hfilled, ↓reduceIte, hstatx, hanswer, hfstatat, hstat]
        · simp only [statOf, hfilled, ↓reduceIte, hcalls, hstat]

/-- The entry without `statx` is the same but for its time of birth. -/
theorem makeDirEntryLinux_withoutStatx (hkernel : SameInodes os path) (err : IoError)
    {info : LinuxDirEntryOwned} (hfresh : info.statx = none) :
    (makeDirEntryLinux (E := E) os info depth path readMetadata readMetadataExt
        followLinkAncestors).withoutCreated =
      (makeDirEntryLinux (os.withoutStatx err) info depth path readMetadata readMetadataExt
        followLinkAncestors).withoutCreated := by
  simp only [makeDirEntryLinux]
  rcases statOf_withoutStatx hkernel err hfresh
    (readMetadata || readMetadataExt || info.dType == DT_UNKNOWN) with
    ⟨hnone, hnone'⟩ | ⟨statx, stat, hsame, hsome, hsome'⟩
  · rw [hnone, hnone']
  · rw [hsome, hsome']
    simp only [hsame.mode_eq, hsame.metaDataExt_eq]
    cases readMetadata with
    | true => simp [DirEntry.withoutCreated, DirEntry.fromRaw, hsame.metaData_eq]
    | false => rfl

end Entries

/-- **All stat sources give the same entries.** For every directory, however its batch goes (in
whatever order the requests are completed, whichever of them fail, and at whichever chunk the batch
returns an error), the entries after the batch are those of the calls for single entries; and those
are, but for their times of birth, the entries where `statx` is not available. -/
theorem stat_sources_agree [Inhabited E] (os : LinuxCalls) (path : Path)
    (hkernel : SameInodes os path) (records : List (UInt8 × OsString))
    (result : Except IoError Unit) (entries' : List LinuxDirEntryOwned)
    (hbatch : BatchReturns os path (records.map fun record => ⟨record.1, record.2, none⟩) result
      entries')
    (depth : ℕ) (readMetadata readMetadataExt : Bool)
    (followLinkAncestors : Option (List AncestorIdentity)) (err : IoError) :
    (entries'.map fun info => makeDirEntryLinux (E := E) os info depth path readMetadata
        readMetadataExt followLinkAncestors) =
      (records.map fun record => makeDirEntryLinux os ⟨record.1, record.2, none⟩ depth path
        readMetadata readMetadataExt followLinkAncestors) ∧
    (records.map fun record => (makeDirEntryLinux (E := E) os ⟨record.1, record.2, none⟩ depth path
        readMetadata readMetadataExt followLinkAncestors).withoutCreated) =
      records.map fun record => (makeDirEntryLinux (os.withoutStatx err)
        ⟨record.1, record.2, none⟩ depth path readMetadata readMetadataExt
        followLinkAncestors).withoutCreated := by
  constructor
  · have hfilled := filled_of_batchReturns hbatch
    rw [List.forall₂_map_left_iff] at hfilled
    rw [← List.forall₂_eq_eq_eq, List.forall₂_map_left_iff, List.forall₂_map_right_iff]
    refine hfilled.flip.imp fun info' record hfrom => ?_
    exact makeDirEntryLinux_filled depth readMetadata readMetadataExt followLinkAncestors hfrom rfl
  · refine List.map_congr_left fun record _ => ?_
    exact makeDirEntryLinux_withoutStatx depth readMetadata readMetadataExt followLinkAncestors
      hkernel err rfl

/-- The answer of `statx` about a file `a` with birth time. -/
def fileStatx : Statx :=
  { Statx.zeroed with
    stxMask := STATX_BTIME, stxMode := 0x8000, stxDevMajor := 8, stxDevMinor := 1 }

/-- The answer of `fstatat` about the same file. -/
def fileStat : Stat := ⟨0x8000, 0, 0, 0, 0, 0, 0, 0, 0, 2049, 0, 0, 0, 0, 0, 0⟩

theorem sameInode_file : SameInode fileStatx fileStat := by
  refine ⟨rfl, rfl, ⟨rfl, rfl⟩, ⟨rfl, rfl⟩, ⟨rfl, rfl⟩, rfl, ⟨?_, ?_, rfl⟩, rfl, rfl, rfl, rfl, rfl,
    ⟨?_, ?_, rfl⟩⟩ <;> decide

/-- A Linux where all entries are this file. -/
def fileLinux : LinuxCalls :=
  { LinuxCalls.listing fun _ => ⟨[], none⟩ with
    statx := fun _ _ => .ok fileStatx
    fstatat := fun _ _ => .ok fileStat }

/-- The statement above for three entries: one whose name has a NUL byte, one whose request fails,
and one whose request succeeds first. -/
theorem stat_sources_agree_three :
    ∃ entries' : List LinuxDirEntryOwned, entries'.map LinuxDirEntryOwned.statx =
        [none, none, some fileStatx] ∧
      (entries'.map fun info =>
          makeDirEntryLinux (E := Unit) fileLinux info 1 ⟨[]⟩ true true none) =
        [(8, [0]), (8, [97]), (0, [98])].map fun record =>
          makeDirEntryLinux fileLinux ⟨record.1, record.2, none⟩ 1 ⟨[]⟩ true true none := by
  let records : List (UInt8 × OsString) := [(8, [0]), (8, [97]), (0, [98])]
  let entries' : List LinuxDirEntryOwned :=
    [⟨8, [0], none⟩, ⟨8, [97], none⟩, ⟨0, [98], some fileStatx⟩]
  have hchunk : ChunkReturns fileLinux ⟨[]⟩
      (records.map fun record => ⟨record.1, record.2, none⟩) (.ok ()) entries' :=
    ⟨[.build (.ok 4), .take, .take, .complete 1 0, .complete 0 (-2), .wait (.ok ()), .reap, .reap,
      .reap], _, rfl, rfl, rfl⟩
  have hbatch : BatchReturns fileLinux ⟨[]⟩
      (records.map fun record => ⟨record.1, record.2, none⟩) (.ok ()) (entries' ++ []) :=
    .next (by simp [records]) hchunk .nil
  refine ⟨entries', rfl, ?_⟩
  have hkernel : SameInodes fileLinux ⟨[]⟩ := by
    refine ⟨fun name statx h => ?_, fun name err h => ?_⟩
    · obtain rfl := Except.ok.inj h
      exact ⟨fileStat, rfl, sameInode_file⟩
    · simp [fileLinux] at h
  exact (stat_sources_agree fileLinux ⟨[]⟩ hkernel records (.ok ()) _ hbatch 1 true true none
    (.os 38)).1

end JwalkMeta
