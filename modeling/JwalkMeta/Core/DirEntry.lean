import JwalkMeta.Core.Error

/-!
# Directory entries

The entries that a walk yields, and how they are made: from the raw data of an enumeration
(`DirEntry.fromRaw`), or by a system call on a path (`DirEntry.fromPath`), which is used for the
root and for followed links.

The answers of the operating system to calls on a path are a parameter (`SystemCalls`).

Source: `src/core/dir_entry.rs`, `src/core/metadata.rs`, `src/core/read_dir_spec.rs`.

## Main definitions

* `FileType`, `MetaData`, `MetaDataExt`, `Metadata`: what a `stat` reports.
* `AncestorIdentity`: the identity of a directory that has been entered.
* `DirEntry`, with `fromRaw`, `fromPath`, `readChildrenSpec` and `followSymlink`.
-/

namespace JwalkMeta

/-! ### What the operating system reports -/

/-- The bits of a mode that hold the file type. -/
def S_IFMT : UInt32 := 0xF000

/-- The file type of a directory. -/
def S_IFDIR : UInt32 := 0x4000

/-- The file type of a regular file. -/
def S_IFREG : UInt32 := 0x8000

/-- The file type of a symbolic link. -/
def S_IFLNK : UInt32 := 0xA000

/-- `std::fs::FileType`: the mode on Unix, two flags on Windows. -/
inductive FileType
  | unix (mode : UInt32)
  | windows (isDirectory isSymlink : Bool)
  deriving DecidableEq, Repr

namespace FileType

/-- `FileType::is_dir`. On Windows a directory that is a link is not one. -/
def isDir : FileType → Bool
  | unix mode => mode &&& S_IFMT == S_IFDIR
  | windows isDirectory isSymlink => isDirectory && !isSymlink

/-- `FileType::is_symlink`. -/
def isSymlink : FileType → Bool
  | unix mode => mode &&& S_IFMT == S_IFLNK
  | windows _ isSymlink => isSymlink

/-- `FileType::is_file`. -/
def isFile : FileType → Bool
  | unix mode => mode &&& S_IFMT == S_IFREG
  | windows isDirectory isSymlink => !isDirectory && !isSymlink

/-- A directory is not a link. -/
theorem isSymlink_of_isDir {t : FileType} (h : t.isDir = true) : t.isSymlink = false := by
  cases t with
  | unix mode =>
    simp only [isDir, isSymlink, beq_iff_eq] at h ⊢
    rw [h]
    decide
  | windows isDirectory isSymlink => simp_all [isDir, FileType.isSymlink]

end FileType

/-- `std::time::SystemTime`: seconds and nanoseconds since the epoch. -/
structure SystemTime where
  secs : Int
  nanos : ℕ
  deriving DecidableEq, Repr

/-- `std::fs::Permissions`, by mode. -/
structure Permissions where
  mode : UInt32
  deriving DecidableEq, Repr

/-- `MetaDataExt`: the platform's own data about a file. -/
inductive MetaDataExt
  | unix (stMode : UInt32) (stIno stDev stNlink stBlksize stBlocks : UInt64)
      (stUid stGid : UInt32) (stRdev : UInt64)
  | windows (fileAttributes : UInt32) (volumeSerialNumber numberOfLinks : Option UInt32)
      (fileIndex : Option UInt64)
  deriving DecidableEq, Repr

/-- `MetaData`: the platform independent data about a file. -/
structure MetaData where
  isDir : Bool
  isFile : Bool
  isSymlink : Bool
  size : UInt64
  created : Option SystemTime
  changed : Option SystemTime
  modified : Option SystemTime
  accessed : Option SystemTime
  permissions : Option Permissions
  deriving DecidableEq, Repr

/-- `std::fs::Metadata`: the answer to a successful `stat`. -/
structure Metadata where
  fileType : FileType
  len : UInt64
  created : Option SystemTime
  modified : Option SystemTime
  accessed : Option SystemTime
  permissions : Permissions
  ext : MetaDataExt
  deriving DecidableEq, Repr

/-- The answer of a Unix system for an object with a mode and an identity. -/
def Metadata.ofMode (mode : UInt32) (dev ino : UInt64) : Metadata where
  fileType := .unix mode
  len := 0
  created := none
  modified := none
  accessed := none
  permissions := ⟨mode⟩
  ext := .unix mode ino dev 1 4096 0 0 0 0

/-- `get_metadata_ext`. -/
def getMetadataExt (metadata : Metadata) : MetaDataExt := metadata.ext

/-- `changed_time_from_metadata`: the creation time on Windows, nothing on Unix. -/
def changedTimeFromMetadata (metadata : Metadata) : Option SystemTime :=
  match metadata.ext with
  | .unix .. => none
  | .windows .. => metadata.created

/-- `MetaData::from_fs_metadata`. -/
def MetaData.fromFsMetadata (metadata : Metadata) : MetaData where
  isDir := metadata.fileType.isDir
  isFile := metadata.fileType.isFile
  isSymlink := metadata.fileType.isSymlink
  size := metadata.len
  created := metadata.created
  changed := changedTimeFromMetadata metadata
  modified := metadata.modified
  accessed := metadata.accessed
  permissions := some metadata.permissions

/-- The answers of the operating system to calls on a path. -/
structure SystemCalls where
  /-- `fs::metadata`, which follows links. -/
  metadata : Path → Except IoError Metadata
  /-- `fs::symlink_metadata`, which does not follow a link at the end of the path. -/
  symlinkMetadata : Path → Except IoError Metadata
  /-- `fs::read_link`. -/
  readLink : Path → Except IoError Path
  /-- `Path::canonicalize`. -/
  canonicalize : Path → Except IoError Path

/-! ### Ancestors and read specifications -/

/-- The identity of a file-system object. -/
inductive Identity
  | unix (dev ino : UInt64)
  | windows (volumeSerialNumber : Option UInt32) (fileIndex : Option UInt64)
  deriving DecidableEq, Repr

/-- The identity that a `stat` reports. -/
def MetaDataExt.identity : MetaDataExt → Identity
  | unix _ stIno stDev _ _ _ _ _ _ => .unix stDev stIno
  | windows _ volumeSerialNumber _ fileIndex => .windows volumeSerialNumber fileIndex

/-- `AncestorIdentity`: a directory that has been entered, for the detection of loops. -/
structure AncestorIdentity where
  path : Path
  identity : Identity
  deriving DecidableEq, Repr

/-- `AncestorIdentity::from_path`: the identity that `symlink_metadata` reports, if it does. -/
def AncestorIdentity.fromPath (os : SystemCalls) (path : Path) : Option AncestorIdentity :=
  match os.symlinkMetadata path with
  | .error _ => none
  | .ok metadata => some ⟨path, (getMetadataExt metadata).identity⟩

/-- `ReadDirSpec`: a directory read that is to be made. -/
structure ReadDirSpec (B : Type) where
  depth : ℕ
  path : Path
  clientReadState : B
  followLinkAncestors : Option (List AncestorIdentity)
  deriving DecidableEq, Repr

/-! ### Directory entries -/

/-- `DirEntry`. The lazily cached path is left out: it is `DirEntry.path`. -/
structure DirEntry (E : Type) where
  depth : ℕ
  fileName : OsString
  fileType : FileType
  clientState : E
  parentPath : Path
  readChildrenPath : Option Path
  readChildrenError : Option Error
  readMetadata : Bool
  metadata : Option MetaData
  readMetadataExt : Bool
  metadataExt : Option MetaDataExt
  followLink : Bool
  followLinkAncestors : Option (List AncestorIdentity)
  deriving DecidableEq, Repr

namespace DirEntry

variable {B E : Type}

/-- The path of an entry. -/
def path (e : DirEntry E) : Path := e.parentPath.join e.fileName

/-- `DirEntry::from_raw`: an entry made from the data of an enumeration. -/
def fromRaw [Inhabited E] (depth : ℕ) (parentPath : Path) (metadata : Option MetaData)
    (metadataExt : Option MetaDataExt) (fileName : OsString) (fileType : FileType)
    (followLinkAncestors : Option (List AncestorIdentity)) : DirEntry E where
  depth := depth
  fileName := fileName
  fileType := fileType
  clientState := default
  parentPath := parentPath
  readChildrenPath := if fileType.isDir then some (parentPath.join fileName) else none
  readChildrenError := none
  readMetadata := metadata.isSome
  metadata := metadata
  readMetadataExt := metadataExt.isSome
  metadataExt := metadataExt
  followLink := false
  followLinkAncestors := followLinkAncestors

/-- `DirEntry::from_path`: an entry made by a call on its path. -/
def fromPath [Inhabited E] (os : SystemCalls) (depth : ℕ) (path : Path)
    (readMetadata readMetadataExt followLink : Bool)
    (followLinkAncestors : Option (List AncestorIdentity)) : Except Error (DirEntry E) :=
  match if followLink then os.metadata path else os.symlinkMetadata path with
  | .error err => .error (Error.fromPath depth path err)
  | .ok metadata => .ok
    { depth := depth
      fileName := path.fileName.getD path.asOsStr
      fileType := metadata.fileType
      clientState := default
      parentPath := path.parent.getD ⟨[]⟩
      readChildrenPath := if metadata.fileType.isDir then some path else none
      readChildrenError := none
      readMetadata := readMetadata
      metadata := if readMetadata then some (.fromFsMetadata metadata) else none
      readMetadataExt := readMetadataExt
      metadataExt :=
        if readMetadata && readMetadataExt then some (getMetadataExt metadata) else none
      followLink := followLink
      followLinkAncestors := followLinkAncestors }

/-- `read_children_spec`: the read that the entry asks for. -/
def readChildrenSpec (e : DirEntry E) (clientReadState : B) : Option (ReadDirSpec B) :=
  e.readChildrenPath.map fun path =>
    { depth := e.depth
      path := path
      clientReadState := clientReadState
      followLinkAncestors := e.followLinkAncestors }

/-- `ancestor_identity_eq`. Without complete data on Windows the answer is no. -/
def ancestorIdentityEq (target : MetaDataExt) (ancestor : AncestorIdentity) : Bool :=
  match target.identity, ancestor.identity with
  | .unix dev ino, .unix dev' ino' => dev == dev' && ino == ino'
  | .windows (some vol) (some idx), .windows (some vol') (some idx') => vol == vol' && idx == idx'
  | _, _ => false

/-- The latest ancestor that a followed link leads back to. -/
def findLoop (ancestors : Option (List AncestorIdentity)) (target : MetaDataExt) :
    Option AncestorIdentity :=
  match ancestors with
  | none => none
  | some ancestors => ancestors.reverse.find? (ancestorIdentityEq target)

/-- `follow_symlink`: the entry for the target of a link, under the path of the link. A directory
that is among the ancestors of the entry is an error. -/
def followSymlink [Inhabited E] (os : SystemCalls) (e : DirEntry E) :
    Except Error (DirEntry E) := do
  let dirEntry : DirEntry E ←
    fromPath os e.depth e.path e.readMetadata e.readMetadataExt true e.followLinkAncestors
  if dirEntry.fileType.isDir then
    match os.readLink e.path with
    | .error err => throw (Error.fromIo e.depth err)
    | .ok target =>
      let resolvedTarget := if target.isAbsolute then target else e.parentPath.joinPath target
      let canonicalTarget := ((os.canonicalize resolvedTarget).toOption).getD resolvedTarget
      match os.metadata canonicalTarget with
      | .error _ => return dirEntry
      | .ok targetMeta =>
        match findLoop e.followLinkAncestors (getMetadataExt targetMeta) with
        | some ancestor => throw (Error.fromLoop e.depth ancestor.path e.path)
        | none => return dirEntry
  else return dirEntry

/-- What keeps a link to a directory from being followed: it cannot be read, or it leads back to an
ancestor. -/
def linkError (os : SystemCalls) (e : DirEntry E) : Option Error :=
  match os.readLink e.path with
  | .error err => some (Error.fromIo e.depth err)
  | .ok target =>
    let resolvedTarget := if target.isAbsolute then target else e.parentPath.joinPath target
    let canonicalTarget := ((os.canonicalize resolvedTarget).toOption).getD resolvedTarget
    match os.metadata canonicalTarget with
    | .error _ => none
    | .ok targetMeta =>
      (findLoop e.followLinkAncestors (getMetadataExt targetMeta)).map fun ancestor =>
        Error.fromLoop e.depth ancestor.path e.path

/-- A followed link gives the entry for its target. Only a directory can be refused. -/
theorem followSymlink_eq [Inhabited E] (os : SystemCalls) (e : DirEntry E) :
    e.followSymlink os =
      (fromPath os e.depth e.path e.readMetadata e.readMetadataExt true
        e.followLinkAncestors).bind fun target =>
          if target.fileType.isDir then (linkError os e).elim (.ok target) .error
          else .ok target := by
  refine congrArg (Except.bind _) (funext fun target => ?_)
  by_cases hdir : target.fileType.isDir = true
  · simp only [hdir, ↓reduceIte, linkError]
    cases os.readLink e.path with
    | error err => rfl
    | ok link =>
      simp only
      generalize ((os.canonicalize _).toOption).getD _ = canonicalTarget
      cases os.metadata canonicalTarget with
      | error err => rfl
      | ok targetMeta =>
        simp only
        cases findLoop e.followLinkAncestors (getMetadataExt targetMeta) <;> rfl
  · simp only [hdir, Bool.false_eq_true, ↓reduceIte]
    rfl

end DirEntry

end JwalkMeta
