import Mathlib.Algebra.GroupWithZero.Nat
import Mathlib.Data.Nat.Notation

/-!
# Paths and errors

Names and paths as the walk handles them, and the error type of the crate. A path is the sequence
of its components, as `std::path::Path::components` gives it; names are byte strings.

Source: `src/core/error.rs`.

## Main definitions

* `OsString`, `Path`, with `join`, `parent`, `fileName`.
* `IoError`, `Error`: I/O errors, and the errors of a walk.
* `isTransientError`: the errors after which a directory read is repeated.
-/

namespace JwalkMeta

/-- The two families of platforms that the source distinguishes. -/
inductive Platform
  | unix
  | windows
  deriving DecidableEq, Repr

/-- A name as the operating system gives it. -/
abbrev OsString := List UInt8

/-- One component of a path. -/
inductive Component
  | rootDir
  | curDir
  | parentDir
  | normal (name : OsString)
  deriving DecidableEq, Repr

/-- A path, as the sequence of its components. -/
structure Path where
  components : List Component
  deriving DecidableEq, Repr

namespace Path

/-- The component that a piece between two separators stands for: empty pieces and `.` stand for
none. -/
def pieceComponent (piece : OsString) : Option Component :=
  if piece = [] ∨ piece = [46] then none
  else if piece = [46, 46] then some .parentDir
  else some (.normal piece)

/-- The path that a byte string spells. A leading `.` is a component, a later one is not. -/
def ofOsStr (s : OsString) : Path :=
  let pieces := s.splitOn 47
  let tail := pieces.filterMap pieceComponent
  if s.head? = some 47 then ⟨.rootDir :: tail⟩
  else if pieces.head? = some [46] then ⟨.curDir :: tail⟩
  else ⟨tail⟩

/-- The spelling of one component. -/
def componentOsStr : Component → OsString
  | .rootDir => []
  | .curDir => [46]
  | .parentDir => [46, 46]
  | .normal name => name

/-- The spelling of a path, with single separators. -/
def asOsStr (p : Path) : OsString :=
  if p.components = [.rootDir] then [47]
  else List.intercalate [47] (p.components.map componentOsStr)

/-- Whether a path starts at the root. -/
def isAbsolute (p : Path) : Bool := p.components.head? == some .rootDir

/-- `Path::join` with a path: an absolute one replaces `p`. -/
def joinPath (p q : Path) : Path :=
  if q.isAbsolute || p.components.isEmpty then q
  else ⟨p.components ++ q.components.filter (· != .curDir)⟩

/-- `Path::join` with a name. -/
def join (p : Path) (name : OsString) : Path := p.joinPath (ofOsStr name)

/-- `Path::file_name`: the last component, if it is a name. -/
def fileName (p : Path) : Option OsString :=
  match p.components.getLast? with
  | some (.normal name) => some name
  | _ => none

/-- `Path::parent`: the path without its last component, if that is not the root. -/
def parent (p : Path) : Option Path :=
  match p.components.getLast? with
  | none | some .rootDir => none
  | _ => some ⟨p.components.dropLast⟩

end Path

/-- The kinds of I/O errors that the source mentions, and all others. -/
inductive ErrorKind
  | timedOut
  | interrupted
  | wouldBlock
  | connectionReset
  | connectionAborted
  | invalidInput
  | other
  deriving DecidableEq, Repr

/-- `std::io::Error`: one that carries the code of the operating system, or one made from a
kind. -/
inductive IoError
  | os (code : Int)
  | simple (kind : ErrorKind)
  deriving DecidableEq, Repr

/-- `ErrorInner`. -/
inductive ErrorInner
  | io (path : Option Path) (err : IoError)
  | loop (ancestor child : Path)
  | threadpoolBusy
  deriving DecidableEq, Repr

/-- `Error`: an error of the walk and the depth at which it occurred. -/
structure Error where
  depth : ℕ
  inner : ErrorInner
  deriving DecidableEq, Repr

namespace Error

/-- The thread pool could not serve the walk, or the results have ended early. -/
def busy : Error := ⟨0, .threadpoolBusy⟩

/-- An I/O error on a path. -/
def fromPath (depth : ℕ) (path : Path) (err : IoError) : Error := ⟨depth, .io (some path) err⟩

/-- An I/O error without a path. -/
def fromIo (depth : ℕ) (err : IoError) : Error := ⟨depth, .io none err⟩

/-- A followed link that leads back to an ancestor. -/
def fromLoop (depth : ℕ) (ancestor child : Path) : Error := ⟨depth, .loop ancestor child⟩

end Error

/-- `is_transient_io_error`: by code where there is one, else by kind. -/
def isTransientIoError (platform : Platform) : IoError → Bool
  | .os code =>
    match platform with
    | .windows => code ∈ [32, 33, 54, 121, 1237]
    | .unix => code ∈ [11, 16, 150]
  | .simple kind =>
    kind ∈ [.timedOut, .interrupted, .wouldBlock, .connectionReset, .connectionAborted]

/-- `is_transient_error`. -/
def isTransientError (platform : Platform) (err : Error) : Bool :=
  match err.inner with
  | .io _ err => isTransientIoError platform err
  | .loop _ _ | .threadpoolBusy => false

end JwalkMeta
