import JwalkMeta.Core.DirEntry
import Mathlib.Algebra.Group.Int.Defs

/-!
# Making entries from an enumeration

Each platform reports the entries of a directory in its own form: Linux by `getdents64` with a
type byte, Windows by `NtQueryDirectoryFileEx` with an attribute word, other Unix systems by
`std::fs::read_dir`. This file makes a `DirEntry` from each of them, and handles links as the
options ask for.

Source: `src/lib.rs`, `src/core/unix_dir_enum.rs`, `src/core/nt_dir_enum.rs`.

## Main definitions

* `LinuxCalls`, `WindowsCalls`, `UnixCalls`: the answers of each platform.
* `makeDirEntryLinux`, `makeDirEntry`, `DirEntry.fromEntry`: the entry for one record.
* `processDirEntryResult`: following a link.
-/

namespace JwalkMeta

variable {E : Type}

/-- What the calls that list a directory report: the records read before the end of the directory
or before an error. A directory that cannot be opened has no records. -/
structure Enumeration (α : Type) where
  records : List α
  error : Option IoError

/-- `is_hidden`: the name starts with a dot. -/
def isHidden (fileName : OsString) : Bool := fileName.head? == some 46

/-- `.` and `..`, which an enumeration leaves out. -/
def isDot (fileName : OsString) : Bool := fileName == [46] || fileName == [46, 46]

/-- `process_dir_entry_result`: follow a link if links are followed; a root that is a link to a
directory is read in any case. -/
def processDirEntryResult [Inhabited E] (os : SystemCalls) (followLinks : Bool) :
    Except Error (DirEntry E) → Except Error (DirEntry E)
  | .error err => .error err
  | .ok dirEntry => do
    let dirEntry ←
      if followLinks && dirEntry.fileType.isSymlink then dirEntry.followSymlink os
      else pure dirEntry
    if !followLinks && dirEntry.depth == 0 && dirEntry.fileType.isSymlink then
      match os.metadata dirEntry.path with
      | .error err => throw (Error.fromPath 0 dirEntry.path err)
      | .ok metadata =>
        if metadata.fileType.isDir then
          return { dirEntry with readChildrenPath := some dirEntry.path }
        else return dirEntry
    else return dirEntry

/-- A link is followed if links are. -/
theorem processDirEntryResult_of_link [Inhabited E] (os : SystemCalls) {followLinks : Bool}
    {e : DirEntry E} (h : (followLinks && e.fileType.isSymlink) = true) :
    processDirEntryResult os followLinks (.ok e) = e.followSymlink os := by
  obtain ⟨hfollow, hlink⟩ := Bool.and_eq_true_iff.mp h
  simp only [processDirEntryResult, hfollow, hlink, Bool.and_true, ↓reduceIte, Bool.not_true,
    Bool.false_and, Bool.false_eq_true]
  exact bind_pure _

/-- Below the root nothing else happens. -/
theorem processDirEntryResult_of_not_link [Inhabited E] (os : SystemCalls) {followLinks : Bool}
    {e : DirEntry E} (h : (followLinks && e.fileType.isSymlink) = false) (hdepth : e.depth ≠ 0) :
    processDirEntryResult os followLinks (.ok e) = .ok e := by
  have hroot : (!followLinks && e.depth == 0 && e.fileType.isSymlink) = false := by
    simp [hdepth]
  simp only [processDirEntryResult, h, Bool.false_eq_true, ↓reduceIte, Bind.bind, Except.bind, pure,
    Except.pure, hroot]

/-- An entry that is not followed stays as it is, but a root that leads to a directory is read. -/
theorem processDirEntryResult_of_unfollowed [Inhabited E] (os : SystemCalls) {followLinks : Bool}
    {e : DirEntry E} (h : (followLinks && e.fileType.isSymlink) = false) :
    processDirEntryResult os followLinks (.ok e) =
      if !followLinks && e.depth == 0 && e.fileType.isSymlink then
        match os.metadata e.path with
        | .error err => .error (Error.fromPath 0 e.path err)
        | .ok metadata =>
          .ok (if metadata.fileType.isDir then { e with readChildrenPath := some e.path } else e)
      else .ok e := by
  simp only [processDirEntryResult, h, Bool.false_eq_true, ↓reduceIte, Bind.bind, Except.bind, pure,
    Except.pure]
  by_cases hroot : (!followLinks && e.depth == 0 && e.fileType.isSymlink) = true
  · rw [if_pos hroot, if_pos hroot]
    cases os.metadata e.path with
    | error err => rfl
    | ok metadata => exact (apply_ite Except.ok _ _ _).symm
  · rw [if_neg hroot, if_neg hroot]

/-! ### Linux -/

/-- A timestamp of `statx`. -/
structure StatxTimestamp where
  tvSec : Int64
  tvNsec : UInt32
  deriving DecidableEq, Repr

/-- `libc::statx`. -/
structure Statx where
  stxMask : UInt32
  stxMode : UInt16
  stxSize : UInt64
  stxBtime : StatxTimestamp
  stxCtime : StatxTimestamp
  stxMtime : StatxTimestamp
  stxAtime : StatxTimestamp
  stxIno : UInt64
  stxDevMajor : UInt32
  stxDevMinor : UInt32
  stxNlink : UInt32
  stxBlksize : UInt32
  stxBlocks : UInt64
  stxUid : UInt32
  stxGid : UInt32
  stxRdevMajor : UInt32
  stxRdevMinor : UInt32
  deriving DecidableEq, Repr

/-- `libc::stat`, with the seconds and the nanoseconds of a time in two fields. -/
structure Stat where
  stMode : UInt32
  stSize : Int64
  stCtime : Int64
  stCtimeNsec : Int64
  stMtime : Int64
  stMtimeNsec : Int64
  stAtime : Int64
  stAtimeNsec : Int64
  stIno : UInt64
  stDev : UInt64
  stNlink : UInt64
  stBlksize : Int64
  stBlocks : Int64
  stUid : UInt32
  stGid : UInt32
  stRdev : UInt64
  deriving DecidableEq, Repr

/-- The type bytes of a directory record. -/
def DT_UNKNOWN : UInt8 := 0

/-- The type byte of a directory. -/
def DT_DIR : UInt8 := 4

/-- The type byte of a symbolic link. -/
def DT_LNK : UInt8 := 10

/-- `STATX_BTIME`. -/
def STATX_BTIME : UInt32 := 0x800

/-- `LinuxDirEntryOwned`. -/
structure LinuxDirEntryOwned where
  dType : UInt8
  name : OsString
  statx : Option Statx
  deriving DecidableEq, Repr

/-- The answers of Linux. The enumeration of a directory may differ from one attempt to the
next. -/
structure LinuxCalls extends SystemCalls where
  /-- `open` and `getdents64`. -/
  enumerate : Path → ℕ → Enumeration (UInt8 × OsString)
  /-- `statx` relative to a directory. -/
  statx : Path → OsString → Except IoError Statx
  /-- `fstatat` relative to a directory. -/
  fstatat : Path → OsString → Except IoError Stat
  /-- What the batch through `io_uring` fills in, for a directory on a slow network file
  system. -/
  prefetch : Path → Option (OsString → Option Statx)

/-- A Linux where directories can be listed and every other call finds nothing. -/
def LinuxCalls.listing (enumerate : Path → Enumeration (UInt8 × OsString)) : LinuxCalls where
  metadata := fun _ => .error (.os 2)
  symlinkMetadata := fun _ => .error (.os 2)
  readLink := fun _ => .error (.os 2)
  canonicalize := fun _ => .error (.os 2)
  enumerate := fun path _ => enumerate path
  statx := fun _ _ => .error (.os 2)
  fstatat := fun _ _ => .error (.os 2)
  prefetch := fun _ => none

/-- `file_type_from_mode`. -/
def fileTypeFromMode (mode : UInt32) : FileType := .unix mode

/-- `file_type_from_dtype`: nothing for an unknown type byte. -/
def fileTypeFromDtype (dType : UInt8) : Option FileType :=
  if dType = DT_DIR then some (fileTypeFromMode S_IFDIR)
  else if dType = 8 then some (fileTypeFromMode S_IFREG)
  else if dType = DT_LNK then some (fileTypeFromMode S_IFLNK)
  else if dType = 1 then some (fileTypeFromMode 0x1000)
  else if dType = 12 then some (fileTypeFromMode 0xC000)
  else if dType = 6 then some (fileTypeFromMode 0x6000)
  else if dType = 2 then some (fileTypeFromMode 0x2000)
  else none

/-- `UNIX_EPOCH.checked_add(Duration::new(secs, nanos))`: nothing beyond the range of
`SystemTime`. -/
def addToEpoch (secs : UInt64) (nanos : UInt32) : Option SystemTime :=
  let secs := secs.toNat + nanos.toNat / 1000000000
  if secs < 2 ^ 63 then some ⟨secs, nanos.toNat % 1000000000⟩ else none

/-- `time_to_systemtime`: nothing before the epoch. -/
def timeToSystemtime (sec nsec : Int64) : Option SystemTime :=
  if sec < 0 then none else addToEpoch sec.toUInt64 nsec.toUInt64.toUInt32

/-- `statx_time_to_systemtime`: nothing before the epoch. -/
def statxTimeToSystemtime (ts : StatxTimestamp) : Option SystemTime :=
  if ts.tvSec < 0 then none else addToEpoch ts.tvSec.toUInt64 ts.tvNsec

/-- `linux_makedev`. -/
def linuxMakedev (major minor : UInt32) : UInt64 :=
  let major := major.toUInt64
  let minor := minor.toUInt64
  ((major &&& (0xfff : UInt64)) <<< (8 : UInt64)) |||
    ((major &&& (0xfffff000 : UInt64)) <<< (32 : UInt64)) |||
    (minor &&& (0xff : UInt64)) ||| ((minor &&& (0xffffff00 : UInt64)) <<< (12 : UInt64))

/-- The mode of an entry by `statx`, widened to `mode_t`. -/
def Statx.mode (statx : Statx) : UInt32 := statx.stxMode.toUInt32

/-- The metadata of an entry by `statx`. -/
def Statx.metaData (statx : Statx) : MetaData where
  isDir := statx.mode &&& S_IFMT == S_IFDIR
  isFile := statx.mode &&& S_IFMT == S_IFREG
  isSymlink := statx.mode &&& S_IFMT == S_IFLNK
  size := statx.stxSize
  created :=
    if statx.stxMask &&& STATX_BTIME != 0 then statxTimeToSystemtime statx.stxBtime else none
  changed := statxTimeToSystemtime statx.stxCtime
  modified := statxTimeToSystemtime statx.stxMtime
  accessed := statxTimeToSystemtime statx.stxAtime
  permissions := some ⟨statx.mode⟩

/-- The extended metadata of an entry by `statx`. -/
def Statx.metaDataExt (statx : Statx) : MetaDataExt :=
  .unix statx.mode statx.stxIno (linuxMakedev statx.stxDevMajor statx.stxDevMinor)
    statx.stxNlink.toUInt64 statx.stxBlksize.toUInt64 statx.stxBlocks statx.stxUid statx.stxGid
    (linuxMakedev statx.stxRdevMajor statx.stxRdevMinor)

/-- The metadata of an entry by `fstatat`, which knows no time of birth. -/
def Stat.metaData (stat : Stat) : MetaData where
  isDir := stat.stMode &&& S_IFMT == S_IFDIR
  isFile := stat.stMode &&& S_IFMT == S_IFREG
  isSymlink := stat.stMode &&& S_IFMT == S_IFLNK
  size := stat.stSize.toUInt64
  created := none
  changed := timeToSystemtime stat.stCtime stat.stCtimeNsec
  modified := timeToSystemtime stat.stMtime stat.stMtimeNsec
  accessed := timeToSystemtime stat.stAtime stat.stAtimeNsec
  permissions := some ⟨stat.stMode⟩

/-- The extended metadata of an entry by `fstatat`. -/
def Stat.metaDataExt (stat : Stat) : MetaDataExt :=
  .unix stat.stMode stat.stIno stat.stDev stat.stNlink stat.stBlksize.toUInt64
    stat.stBlocks.toUInt64 stat.stUid stat.stGid stat.stRdev

/-- Whether `CString::new` refuses a name. -/
def hasNul (name : OsString) : Bool := name.contains 0

/-- `statx_metadata`. -/
def statxMetadata (os : LinuxCalls) (parentPath : Path) (name : OsString) :
    Except IoError Statx :=
  if hasNul name then .error (.simple .invalidInput) else os.statx parentPath name

/-- `fstatat_metadata`. -/
def fstatatMetadata (os : LinuxCalls) (parentPath : Path) (name : OsString) :
    Except IoError Stat :=
  if hasNul name then .error (.simple .invalidInput) else os.fstatat parentPath name

/-- `try_fill_from_statx`: the mode and the metadata of what was fetched in advance, if anything
was. -/
def tryFillFromStatx (info : LinuxDirEntryOwned) : Option (UInt32 × MetaData × MetaDataExt) :=
  info.statx.map fun statx =>
    let mode := statx.stxMode.toUInt32
    (mode,
      { isDir := mode &&& S_IFMT == S_IFDIR
        isFile := mode &&& S_IFMT == S_IFREG
        isSymlink := mode &&& S_IFMT == S_IFLNK
        size := statx.stxSize
        created :=
          if statx.stxMask &&& STATX_BTIME != 0 then statxTimeToSystemtime statx.stxBtime else none
        changed := statxTimeToSystemtime statx.stxCtime
        modified := statxTimeToSystemtime statx.stxMtime
        accessed := statxTimeToSystemtime statx.stxAtime
        permissions := some ⟨mode⟩ },
      .unix mode statx.stxIno (linuxMakedev statx.stxDevMajor statx.stxDevMinor)
        statx.stxNlink.toUInt64 statx.stxBlksize.toUInt64 statx.stxBlocks statx.stxUid statx.stxGid
        (linuxMakedev statx.stxRdevMajor statx.stxRdevMinor))

/-- What was fetched in advance is converted as an answer of `statx` is. -/
theorem tryFillFromStatx_eq (info : LinuxDirEntryOwned) :
    tryFillFromStatx info =
      info.statx.map fun statx => (statx.mode, statx.metaData, statx.metaDataExt) := rfl

/-- The mode and the metadata that the calls on one entry give: what was fetched in advance, else
`statx`, else `fstatat`, and none of them if nothing is needed. -/
def statOf (os : LinuxCalls) (info : LinuxDirEntryOwned) (parentPath : Path) (needStat : Bool) :
    Option (UInt32 × MetaData × MetaDataExt) :=
  match tryFillFromStatx info with
  | some filled => some filled
  | none =>
    if needStat then
      match statxMetadata os parentPath info.name with
      | .ok statx => some (statx.mode, statx.metaData, statx.metaDataExt)
      | .error _ =>
        match fstatatMetadata os parentPath info.name with
        | .ok stat => some (stat.stMode, stat.metaData, stat.metaDataExt)
        | .error _ => none
    else none

/-- `make_dir_entry_linux`: the type byte decides about the file type where it is known; an entry
whose type stays unknown is taken for a regular file. -/
def makeDirEntryLinux [Inhabited E] (os : LinuxCalls) (info : LinuxDirEntryOwned) (depth : ℕ)
    (parentPath : Path) (readMetadata readMetadataExt : Bool)
    (followLinkAncestors : Option (List AncestorIdentity)) : DirEntry E :=
  let needStat := readMetadata || readMetadataExt || info.dType == DT_UNKNOWN
  let fileType := (fileTypeFromDtype info.dType).getD (fileTypeFromMode S_IFREG)
  match statOf os info parentPath needStat with
  | none => .fromRaw depth parentPath none none info.name fileType followLinkAncestors
  | some (mode, metadata, metadataExt) =>
    let fileType := if info.dType == DT_UNKNOWN then fileTypeFromMode mode else fileType
    .fromRaw depth parentPath (if readMetadata then some metadata else none)
      (if readMetadataExt then some metadataExt else none) info.name fileType followLinkAncestors

/-! ### Windows -/

/-- `FILE_ATTRIBUTE_DIRECTORY`. -/
def FILE_ATTRIBUTE_DIRECTORY : UInt32 := 0x10

/-- `FILE_ATTRIBUTE_REPARSE_POINT`. -/
def FILE_ATTRIBUTE_REPARSE_POINT : UInt32 := 0x400

/-- `FILE_ATTRIBUTE_HIDDEN`. -/
def FILE_ATTRIBUTE_HIDDEN : UInt32 := 0x2

/-- `DirEntryInfo`. -/
structure DirEntryInfo where
  fileName : OsString
  fileAttributes : UInt32
  fileSize : UInt64
  creationTime : Int
  lastWriteTime : Int
  lastAccessTime : Int
  fileId : UInt64
  numberOfLinks : Option UInt32
  volumeSerialNumber : Option UInt32
  deriving DecidableEq, Repr

/-- The answers of Windows. -/
structure WindowsCalls extends SystemCalls where
  /-- `NtQueryDirectoryFileEx`. -/
  enumerate : Path → ℕ → Enumeration DirEntryInfo
  /-- Whether the file system of a directory belongs to the FAT family. -/
  isFatFamily : Path → Bool
  /-- The serial number of the volume of a directory. -/
  volSerial : Path → Option UInt32
  /-- `NtQueryInformationByName`: the number of links of an entry of a directory. -/
  queryNlinks : Path → OsString → Option UInt32

/-- Whether an attribute word has the directory bit. -/
def hasDirectoryBit (fileAttributes : UInt32) : Bool :=
  fileAttributes &&& FILE_ATTRIBUTE_DIRECTORY != 0

/-- Whether an attribute word has the bit of reparse points. -/
def hasReparsePointBit (fileAttributes : UInt32) : Bool :=
  fileAttributes &&& FILE_ATTRIBUTE_REPARSE_POINT != 0

/-- `is_hidden_win32`: by attribute or by name. -/
def isHiddenWin32 (fileName : OsString) (fileAttributes : UInt32) : Bool :=
  if fileAttributes &&& FILE_ATTRIBUTE_HIDDEN != 0 then true else isHidden fileName

/-- `filetime_to_systemtime`: 100 ns ticks since 1601, nothing for zero or before the epoch. -/
def filetimeToSystemtime (ft : Int) : Option SystemTime :=
  let ticks := ft - 116444736000000000
  if ft = 0 then none
  else if ticks < 0 then none
  else some ⟨ticks / 10000000, (ticks % 10000000 * 100).toNat⟩

/-- `file_type_from_attrs`. -/
def fileTypeFromAttrs (fileAttributes : UInt32) : FileType :=
  .windows (hasDirectoryBit fileAttributes) (hasReparsePointBit fileAttributes)

/-- `make_metadata`. -/
def makeMetadata (info : DirEntryInfo) : MetaData where
  isDir := hasDirectoryBit info.fileAttributes
  isFile := !hasDirectoryBit info.fileAttributes && !hasReparsePointBit info.fileAttributes
  isSymlink := hasReparsePointBit info.fileAttributes
  size := info.fileSize
  created := filetimeToSystemtime info.creationTime
  changed := filetimeToSystemtime info.creationTime
  modified := filetimeToSystemtime info.lastWriteTime
  accessed := filetimeToSystemtime info.lastAccessTime
  permissions := none

/-- `make_metadata_ext` without a path to fall back to, as `make_dir_entry` calls it. -/
def makeMetadataExt (info : DirEntryInfo) : MetaDataExt :=
  .windows info.fileAttributes info.volumeSerialNumber info.numberOfLinks (some info.fileId)

/-- `make_dir_entry`. -/
def makeDirEntry [Inhabited E] (info : DirEntryInfo) (depth : ℕ) (parentPath : Path)
    (readMetadata readMetadataExt : Bool)
    (followLinkAncestors : Option (List AncestorIdentity)) : DirEntry E :=
  .fromRaw depth parentPath (if readMetadata then some (makeMetadata info) else none)
    (if readMetadataExt then some (makeMetadataExt info) else none) info.fileName
    (fileTypeFromAttrs info.fileAttributes) followLinkAncestors

/-- The numbers of links and the serial number of the volume, filled in for all entries: one link
on a file system of the FAT family, else what the query by name gives. -/
def fillLinkInfo (os : WindowsCalls) (path : Path) (entries : List DirEntryInfo) :
    List DirEntryInfo :=
  entries.map fun info =>
    let links :=
      if os.isFatFamily path then some 1
      else if info.fileName.isEmpty then info.numberOfLinks
      else (os.queryNlinks path info.fileName).orElse fun _ => info.numberOfLinks
    { info with
      numberOfLinks := links
      volumeSerialNumber := (os.volSerial path).orElse fun _ => info.volumeSerialNumber }

/-! ### Other Unix systems -/

/-- `std::fs::DirEntry`: a name and the answers to the two calls on it. -/
structure FsDirEntry where
  fileName : OsString
  fileType : Except IoError FileType
  metadata : Except IoError Metadata

/-- The answers of a Unix system that is listed with `std::fs::read_dir`. -/
structure UnixCalls extends SystemCalls where
  /-- `fs::read_dir`: the directory may fail to open, or single entries may fail. -/
  readDir : Path → ℕ → Except IoError (List (Except IoError FsDirEntry))

/-- `DirEntry::from_entry`. -/
def DirEntry.fromEntry [Inhabited E] (depth : ℕ) (parentPath : Path) (metadata : Option MetaData)
    (metadataExt : Option MetaDataExt) (entry : FsDirEntry)
    (followLinkAncestors : Option (List AncestorIdentity)) : Except Error (DirEntry E) :=
  match entry.fileType with
  | .error err => .error (Error.fromIo depth err)
  | .ok fileType =>
    .ok (.fromRaw depth parentPath metadata metadataExt entry.fileName fileType
      followLinkAncestors)

/-- The metadata that stands in for one that cannot be read. -/
def MetaData.ofFileType (fileType : FileType) : MetaData where
  isDir := fileType.isDir
  isFile := fileType.isFile
  isSymlink := fileType.isSymlink
  size := 0
  created := none
  changed := none
  modified := none
  accessed := none
  permissions := none

/-- The metadata of an entry of `read_dir_unix_fs_legacy`: by the call on the entry, else by its
file type, else an error. -/
def legacyMetadata (os : UnixCalls) (depth : ℕ) (parentPath : Path) (entry : FsDirEntry)
    (readMetadata readMetadataExt : Bool) :
    Except Error (Option MetaData × Option MetaDataExt) :=
  if readMetadata then
    match entry.metadata with
    | .ok metadata => .ok (some (.fromFsMetadata metadata),
        if readMetadataExt then some (getMetadataExt metadata) else none)
    | .error _ =>
      match entry.fileType with
      | .ok fileType => .ok (some (.ofFileType fileType), none)
      | .error _ => .error (Error.fromPath depth (parentPath.join entry.fileName) (.simple .other))
  else if readMetadataExt then
    match os.symlinkMetadata (parentPath.join entry.fileName) with
    | .ok metadata => .ok (none, some (getMetadataExt metadata))
    | .error _ => .ok (none, none)
  else .ok (none, none)

end JwalkMeta
