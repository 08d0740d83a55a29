import JwalkMeta.WalkDir.Callback

/-!
# A Unix file system

The answers of the operating system on a file system that does not change: directories that form a
tree, links that may point anywhere, and other objects. A path is resolved component by component;
a link is replaced by its target, and a bounded number of links is followed.

Every directory can be opened and searched by its path: nobody is denied access, and no path is too
long. What is said about walks of such a file system rests on this.

## Main definitions

* `FileSystem`: the objects, with the tree of directories.
* `FileSystem.resolve`, `FileSystem.stat`, `FileSystem.lstat`: the object that a path leads to.
* `FileSystem.host`: the answers of a Unix system, for walks on Linux and elsewhere.

## Main results

* `FileSystem.resolve_append`: a path is resolved by resolving its parts one after the other.
* `FileSystem.stat_resolvedTarget`: the target of a link, spelled from the directory of the link,
  leads where the link leads.
* `FileSystem.stat_canonicalPath`: the canonical path of an object leads to it.
-/

namespace JwalkMeta

/-! ### Objects -/

/-- What an object of a file system is. -/
inductive Node (ι : Type)
  | dir (entries : List (OsString × ι))
  | link (target : Path)
  | other

namespace Node

variable {ι : Type}

def isDir : Node ι → Bool
  | dir _ => true
  | _ => false

def isLink : Node ι → Bool
  | link _ => true
  | _ => false

/-- The entries of a directory. -/
def entries : Node ι → List (OsString × ι)
  | dir entries => entries
  | _ => []

theorem isLink_of_isDir {node : Node ι} (h : node.isDir = true) : node.isLink = false := by
  cases node with
  | dir entries => rfl
  | _ => cases h

theorem isDir_of_mem {node : Node ι} {e : OsString × ι} (h : e ∈ node.entries) :
    node.isDir = true := by
  cases node with
  | dir entries => rfl
  | _ => exact absurd h List.not_mem_nil

end Node

/-- The names that entries can have. -/
def ValidName (name : OsString) : Prop :=
  name ≠ [] ∧ (47 : UInt8) ∉ name ∧ hasNul name = false ∧ isDot name = false

instance (name : OsString) : Decidable (ValidName name) := inferInstanceAs (Decidable (_ ∧ _))

/-- Joining a valid name adds one component. -/
theorem ValidName.components_join {name : OsString} (h : ValidName name) (path : Path) :
    (path.join name).components = path.components ++ [.normal name] := by
  obtain ⟨hne, hslash, -, hdot⟩ := h
  have hpieces : name.splitOn 47 = [name] := List.splitOn_eq_singleton hslash
  have hdots : name ≠ [46] ∧ name ≠ [46, 46] := by simpa [isDot] using hdot
  have hhead : name.head? ≠ some 47 := fun hhead => hslash (List.mem_of_mem_head? hhead)
  have hspell : Path.ofOsStr name = ⟨[.normal name]⟩ := by
    simp [Path.ofOsStr, hpieces, hhead, Path.pieceComponent, hne, hdots.1, hdots.2]
  by_cases hpath : path.components = []
  · simp [Path.join, Path.joinPath, hspell, hpath]
  · simp [Path.join, Path.joinPath, hspell, hpath, Path.isAbsolute]

/-- The time that `std::fs::Metadata` reports, which may lie before the epoch. -/
def StatxTimestamp.systemTime (ts : StatxTimestamp) : SystemTime :=
  ⟨ts.tvSec.toInt, ts.tvNsec.toNat⟩

/-- `std::fs::Metadata`, as it is made from a `statx`. -/
def Statx.metadata (statx : Statx) : Metadata where
  fileType := fileTypeFromMode statx.mode
  len := statx.stxSize
  created := if statx.stxMask &&& STATX_BTIME != 0 then some statx.stxBtime.systemTime else none
  modified := some statx.stxMtime.systemTime
  accessed := some statx.stxAtime.systemTime
  permissions := ⟨statx.mode⟩
  ext := statx.metaDataExt

/-- The answer of `fstatat` for an object. -/
def Statx.stat (statx : Statx) : Stat where
  stMode := statx.mode
  stSize := statx.stxSize.toInt64
  stCtime := statx.stxCtime.tvSec
  stCtimeNsec := statx.stxCtime.tvNsec.toUInt64.toInt64
  stMtime := statx.stxMtime.tvSec
  stMtimeNsec := statx.stxMtime.tvNsec.toUInt64.toInt64
  stAtime := statx.stxAtime.tvSec
  stAtimeNsec := statx.stxAtime.tvNsec.toUInt64.toInt64
  stIno := statx.stxIno
  stDev := linuxMakedev statx.stxDevMajor statx.stxDevMinor
  stNlink := statx.stxNlink.toUInt64
  stBlksize := statx.stxBlksize.toUInt64.toInt64
  stBlocks := statx.stxBlocks.toInt64
  stUid := statx.stxUid
  stGid := statx.stxGid
  stRdev := linuxMakedev statx.stxRdevMajor statx.stxRdevMinor

/-- The object that a list of names leads to, from directory to directory. -/
def descend {ι : Type} (node : ι → Node ι) : ι → List OsString → Option ι
  | o, [] => some o
  | o, name :: names => ((node o).entries.lookup name).bind fun o => descend node o names

/-- A Unix file system over a type of objects. Directories form a tree: the root is no entry, every
other directory is an entry of one directory, its parent, under one name, and every object that is
not a link has an address. -/
structure FileSystem (ι : Type) where
  node : ι → Node ι
  statx : ι → Statx
  /-- The type byte in the records of a directory. -/
  dType : ι → UInt8
  root : ι
  /-- The working directory. -/
  cwd : ι
  /-- The directory that `..` leads to. -/
  parent : ι → ι
  /-- The names that lead to an object from the root. -/
  address : ι → List OsString
  /-- How many links are followed in one path. -/
  maxLinks : ℕ
  /-- Whether the entries of a directory are looked up in a batch. -/
  batched : ι → Bool
  isDir_mode : ∀ o, (fileTypeFromMode (statx o).mode).isDir = (node o).isDir
  isSymlink_mode : ∀ o, (fileTypeFromMode (statx o).mode).isSymlink = (node o).isLink
  dType_known : ∀ o, dType o ≠ DT_UNKNOWN →
    (dType o == DT_DIR) = (node o).isDir ∧ (dType o == DT_LNK) = (node o).isLink
  identity_injective : Function.Injective fun o => (statx o).metaDataExt.identity
  isDir_root : (node root).isDir = true
  isDir_cwd : (node cwd).isDir = true
  isDir_parent : ∀ d, (node d).isDir = true → (node (parent d)).isDir = true
  parent_root : parent root = root
  ne_root : ∀ d, ∀ e ∈ (node d).entries, e.2 ≠ root
  parent_eq : ∀ d, ∀ e ∈ (node d).entries, (node e.2).isDir = true → parent e.2 = d
  name_eq : ∀ d, ∀ e ∈ (node d).entries, ∀ e' ∈ (node d).entries,
    (node e.2).isDir = true → e.2 = e'.2 → e = e'
  descend_address : ∀ o, (node o).isLink = false → descend node root (address o) = some o
  validName : ∀ d, ∀ e ∈ (node d).entries, ValidName e.1
  nodup_names : ∀ d, ((node d).entries.map Prod.fst).Nodup
  target_ne : ∀ o target, node o = .link target → target.components ≠ []

namespace FileSystem

variable {ι : Type} (fs : FileSystem ι)

/-! ### Resolving paths -/

/-- The object that one component leads to from a directory. -/
def lookup (d : ι) : Component → Except IoError ι
  | .rootDir => .ok fs.root
  | .curDir => if (fs.node d).isDir then .ok d else .error (.os 20)
  | .parentDir => if (fs.node d).isDir then .ok (fs.parent d) else .error (.os 20)
  | .normal name =>
    if (fs.node d).isDir then
      match (fs.node d).entries.lookup name with
      | some o => .ok o
      | none => .error (.os 2)
    else .error (.os 20)

/-- Resolve components from an object on, with a rule for what happens at links. -/
def walk (jump : ι → List Component → Except IoError (ι × ℕ)) (links : ℕ) :
    ι → List Component → Except IoError (ι × ℕ)
  | o, [] => .ok (o, links)
  | o, c :: rest => do
    let o' ← fs.lookup o c
    match fs.node o' with
    | .link target => jump o (target.components ++ rest)
    | _ => walk jump links o' rest

/-- Resolve components, where at most `links` links are followed. The value is the object and the
number of links that could still be followed. -/
def resolve : ℕ → ι → List Component → Except IoError (ι × ℕ)
  | 0 => fs.walk (fun _ _ => .error (.os 40)) 0
  | links + 1 => fs.walk (resolve links) (links + 1)

/-- The object that a path leads to, all links followed. -/
def stat (path : Path) : Except IoError ι :=
  if path.components = [] then .error (.os 2)
  else (fs.resolve fs.maxLinks fs.cwd path.components).map Prod.fst

/-- The object that a path names: a link at its end is not followed. -/
def lstat (path : Path) : Except IoError ι :=
  match path.components.getLast? with
  | none => .error (.os 2)
  | some c => do
    let (d, _) ← fs.resolve fs.maxLinks fs.cwd path.components.dropLast
    fs.lookup d c

/-- The path from the root to an object. -/
def canonicalPath (o : ι) : Path := ⟨.rootDir :: (fs.address o).map .normal⟩

/-! ### The answers of the operating system -/

/-- The answers to calls on a path. -/
def systemCalls : SystemCalls where
  metadata := fun path => (fs.stat path).map fun o => (fs.statx o).metadata
  symlinkMetadata := fun path => (fs.lstat path).map fun o => (fs.statx o).metadata
  readLink := fun path => do
    match fs.node (← fs.lstat path) with
    | .link target => return target
    | _ => throw (.os 22)
  canonicalize := fun path => (fs.stat path).map fs.canonicalPath

/-- The directory that a path leads to. -/
def openDir (path : Path) : Except IoError ι := do
  let d ← fs.stat path
  if (fs.node d).isDir then return d else throw (.os 20)

/-- The entry of a directory, found by its name. -/
def entryAt (path : Path) (name : OsString) : Except IoError ι := do
  fs.lookup (← fs.openDir path) (.normal name)

/-- The answers of Linux. -/
def linux : LinuxCalls :=
  { fs.systemCalls with
    enumerate := fun path _ =>
      match fs.openDir path with
      | .ok d => ⟨(DT_DIR, [46]) :: (DT_DIR, [46, 46]) ::
          (fs.node d).entries.map fun e => (fs.dType e.2, e.1), none⟩
      | .error err => ⟨[], some err⟩
    statx := fun path name => (fs.entryAt path name).map fs.statx
    fstatat := fun path name => (fs.entryAt path name).map fun o => (fs.statx o).stat
    prefetch := fun path =>
      match fs.openDir path with
      | .ok d =>
        if fs.batched d then
          some fun name => (fs.entryAt path name).toOption.map fs.statx
        else none
      | .error _ => none }

/-- The answers of a Unix system that is listed with `std::fs::read_dir`. -/
def unix : UnixCalls :=
  { fs.systemCalls with
    readDir := fun path _ => (fs.openDir path).map fun d => (fs.node d).entries.map fun e =>
      .ok ⟨e.1, .ok (fs.statx e.2).metadata.fileType, .ok (fs.statx e.2).metadata⟩ }

/-- The platform of a walk: Linux with `getdents64`, or any Unix with `std::fs::read_dir`. -/
def host (getdents : Bool) : OperatingSystem :=
  if getdents then .linux fs.linux else .unix fs.unix

/-! ### How paths are resolved -/

variable {fs} {n m : ℕ} {o o' d : ι} {c : Component} {rest p q : List Component} {target : Path}

@[simp] theorem resolve_nil (n : ℕ) (o : ι) : fs.resolve n o [] = .ok (o, n) := by
  cases n <;> rfl

theorem resolve_cons_of_not_link (hlookup : fs.lookup o c = .ok o')
    (hlink : (fs.node o').isLink = false) :
    fs.resolve n o (c :: rest) = fs.resolve n o' rest := by
  cases hnode : fs.node o' with
  | link target => simp [hnode, Node.isLink] at hlink
  | _ => cases n <;> simp [resolve, walk, hlookup, hnode, Bind.bind, Except.bind]

theorem resolve_cons_of_link (hlookup : fs.lookup o c = .ok o')
    (hlink : fs.node o' = .link target) :
    fs.resolve (n + 1) o (c :: rest) = fs.resolve n o (target.components ++ rest) := by
  simp [resolve, walk, hlookup, hlink, Bind.bind, Except.bind]

theorem resolve_zero_of_link (hlookup : fs.lookup o c = .ok o')
    (hlink : fs.node o' = .link target) :
    fs.resolve 0 o (c :: rest) = .error (.os 40) := by
  simp [resolve, walk, hlookup, hlink, Bind.bind, Except.bind]

theorem resolve_cons_of_error {err : IoError} (hlookup : fs.lookup o c = .error err) :
    fs.resolve n o (c :: rest) = .error err := by
  cases n <;> simp [resolve, walk, hlookup, Bind.bind, Except.bind]

/-- What the first component leads to decides how the rest is resolved. -/
theorem resolve_cons_cases (fs : FileSystem ι) (n : ℕ) (o : ι) (c : Component) :
    (∃ err, ∀ rest, fs.resolve n o (c :: rest) = .error err) ∨
    (∃ o', fs.lookup o c = .ok o' ∧ (fs.node o').isLink = false ∧
      ∀ rest, fs.resolve n o (c :: rest) = fs.resolve n o' rest) ∨
    (∃ o' target k, fs.lookup o c = .ok o' ∧ fs.node o' = .link target ∧ n = k + 1 ∧
      ∀ rest, fs.resolve n o (c :: rest) = fs.resolve k o (target.components ++ rest)) := by
  cases hlookup : fs.lookup o c with
  | error err => exact Or.inl ⟨err, fun _ => resolve_cons_of_error hlookup⟩
  | ok o' =>
    cases hnode : fs.node o' with
    | link target =>
      cases n with
      | zero => exact Or.inl ⟨_, fun _ => resolve_zero_of_link hlookup hnode⟩
      | succ k =>
        exact Or.inr (Or.inr ⟨o', target, k, rfl, hnode, rfl,
          fun _ => resolve_cons_of_link hlookup hnode⟩)
    | _ =>
      have hlink : (fs.node o').isLink = false := by simp [hnode, Node.isLink]
      exact Or.inr (Or.inl ⟨o', rfl, hlink, fun _ => resolve_cons_of_not_link hlookup hlink⟩)

/-- **A path is resolved by resolving its parts one after the other.** -/
theorem resolve_append (fs : FileSystem ι) (n : ℕ) (o : ι) (p q : List Component) :
    fs.resolve n o (p ++ q) = fs.resolve n o p >>= fun r => fs.resolve r.2 r.1 q := by
  induction n using Nat.strong_induction_on generalizing o p with
  | _ n ihn =>
    induction p generalizing o with
    | nil => simp [Bind.bind, Except.bind]
    | cons c p ihp =>
      rw [List.cons_append]
      obtain ⟨err, herr⟩ | ⟨o', -, -, hstep⟩ | ⟨o', target, k, -, -, rfl, hstep⟩ :=
        resolve_cons_cases fs n o c
      · rw [herr, herr]
        rfl
      · rw [hstep, hstep, ihp]
      · rw [hstep, hstep, ← List.append_assoc, ihn k (Nat.lt_succ_self k)]

/-- The number of links that can be followed does not grow. -/
theorem le_of_resolve (h : fs.resolve n o p = .ok (o', m)) : m ≤ n := by
  induction n using Nat.strong_induction_on generalizing o p with
  | _ n ihn =>
    induction p generalizing o with
    | nil =>
      rw [resolve_nil] at h
      cases h
      exact le_rfl
    | cons c p ihp =>
      obtain ⟨err, herr⟩ | ⟨o₁, -, -, hstep⟩ | ⟨o₁, target, k, -, -, rfl, hstep⟩ :=
        resolve_cons_cases fs n o c
      · rw [herr] at h
        cases h
      · exact ihp (by rwa [hstep] at h)
      · have := ihn k (Nat.lt_succ_self k) (by rwa [hstep] at h)
        omega

/-- With more links to follow, a path leads to the same object. -/
theorem resolve_add (h : fs.resolve n o p = .ok (o', m)) (j : ℕ) :
    fs.resolve (n + j) o p = .ok (o', m + j) := by
  induction n using Nat.strong_induction_on generalizing o p with
  | _ n ihn =>
    induction p generalizing o with
    | nil =>
      rw [resolve_nil] at h ⊢
      cases h
      rfl
    | cons c p ihp =>
      obtain ⟨err, herr⟩ | ⟨o₁, hlookup, hlink, hstep⟩ |
        ⟨o₁, target, k, hlookup, hlink, rfl, hstep⟩ := resolve_cons_cases fs n o c
      · rw [herr] at h
        cases h
      · rw [resolve_cons_of_not_link hlookup hlink]
        exact ihp (by rwa [hstep] at h)
      · rw [Nat.add_right_comm, resolve_cons_of_link hlookup hlink]
        exact ihn k (Nat.lt_succ_self k) (by rwa [hstep] at h)

theorem resolve_curDir {r : ι × ℕ} (h : fs.resolve n o [.curDir] = .ok r) : r = (o, n) := by
  by_cases hdir : (fs.node o).isDir = true
  · have hlookup : fs.lookup o .curDir = .ok o := by simp [lookup, hdir]
    rw [resolve_cons_of_not_link hlookup (Node.isLink_of_isDir hdir), resolve_nil] at h
    exact (Except.ok.inj h).symm
  · have hlookup : fs.lookup o .curDir = .error (.os 20) := by simp [lookup, hdir]
    rw [resolve_cons_of_error hlookup] at h
    cases h

/-- Components that stay in place can be left out. -/
theorem resolve_filter (h : fs.resolve n o p = .ok (o', m)) :
    fs.resolve n o (p.filter (· != .curDir)) = .ok (o', m) := by
  induction p generalizing n o with
  | nil => exact h
  | cons c p ih =>
    rw [← List.singleton_append, resolve_append] at h
    cases hc : fs.resolve n o [c] with
    | error err =>
      rw [hc] at h
      cases h
    | ok r =>
      rw [hc] at h
      have hrest := ih h
      by_cases hcur : c = .curDir
      · subst hcur
        rw [resolve_curDir hc] at hrest
        exact hrest
      · rw [List.filter_cons_of_pos (by simpa using hcur), ← List.singleton_append, resolve_append,
          hc]
        exact hrest

/-- An absolute path leads to the same object from everywhere. -/
theorem resolve_of_isAbsolute {path : Path} (h : path.isAbsolute = true) (n : ℕ) (o o' : ι) :
    fs.resolve n o path.components = fs.resolve n o' path.components := by
  obtain ⟨components⟩ := path
  cases components with
  | nil => simp [Path.isAbsolute] at h
  | cons c rest =>
    obtain rfl : c = .rootDir := by simpa [Path.isAbsolute] using h
    have hlink := Node.isLink_of_isDir fs.isDir_root
    rw [resolve_cons_of_not_link (o := o) rfl hlink, resolve_cons_of_not_link (o := o') rfl hlink]

/-- The object that names lead to is found by resolving them. -/
theorem resolve_of_descend {names : List OsString} (h : descend fs.node o names = some o')
    (hlink : (fs.node o').isLink = false) :
    (fs.node o).isLink = false ∧ fs.resolve n o (names.map .normal) = .ok (o', n) := by
  induction names generalizing o with
  | nil =>
    obtain rfl : o = o' := Option.some.inj h
    exact ⟨hlink, resolve_nil n o⟩
  | cons name names ih =>
    obtain ⟨o₁, hlookup, hdescend⟩ := Option.bind_eq_some_iff.mp h
    obtain ⟨hlink₁, hresolve⟩ := ih hdescend
    have hdir : (fs.node o).isDir = true := by
      cases hnode : fs.node o with
      | dir entries => rfl
      | _ => simp [hnode, Node.entries] at hlookup
    have hcomponent : fs.lookup o (.normal name) = .ok o₁ := by simp [lookup, hdir, hlookup]
    refine ⟨Node.isLink_of_isDir hdir, ?_⟩
    rw [List.map_cons, resolve_cons_of_not_link hcomponent hlink₁]
    exact hresolve

/-! ### The objects that paths lead to -/

variable {path parentPath : Path} {name : OsString}

theorem stat_eq_ok_iff : fs.stat path = .ok d ↔
    path.components ≠ [] ∧ ∃ m, fs.resolve fs.maxLinks fs.cwd path.components = .ok (d, m) := by
  by_cases hpath : path.components = []
  · simp [stat, hpath]
  · cases hresolve : fs.resolve fs.maxLinks fs.cwd path.components <;>
      simp [stat, hpath, hresolve, Except.map, Prod.ext_iff]

/-- The canonical path of an object leads to it. -/
theorem stat_canonicalPath (hlink : (fs.node o).isLink = false) :
    fs.stat (fs.canonicalPath o) = .ok o := by
  refine stat_eq_ok_iff.mpr ⟨List.cons_ne_nil _ _, fs.maxLinks, ?_⟩
  rw [canonicalPath, resolve_cons_of_not_link rfl (Node.isLink_of_isDir fs.isDir_root)]
  exact (resolve_of_descend (fs.descend_address o hlink) hlink).2

/-- Entries are found by their names. -/
theorem lookup_of_mem (h : (name, o) ∈ (fs.node d).entries) :
    fs.lookup d (.normal name) = .ok o := by
  have hlookup : (fs.node d).entries.lookup name = some o := by
    obtain ⟨l₁, l₂, hsplit⟩ := List.append_of_mem h
    refine List.lookup_eq_some_iff.mpr ⟨l₁, l₂, hsplit, fun e he => ?_⟩
    have hnodup := fs.nodup_names d
    rw [hsplit, List.map_append, List.map_cons] at hnodup
    have hne := (List.nodup_append.mp hnodup).2.2 e.1 (List.mem_map_of_mem he) name
      List.mem_cons_self
    simpa using hne.symm
  simp [lookup, Node.isDir_of_mem h, hlookup]

/-- What a name in a directory leads to, without following a link. -/
theorem lstat_join (hname : ValidName name)
    (hparent : fs.resolve fs.maxLinks fs.cwd parentPath.components = .ok (d, m)) :
    fs.lstat (parentPath.join name) = fs.lookup d (.normal name) := by
  simp [lstat, hname.components_join, hparent, Bind.bind, Except.bind]

/-- A path that does not end in a link leads to what it names. -/
theorem stat_of_lstat (h : fs.lstat path = .ok o) (hlink : (fs.node o).isLink = false) :
    fs.stat path = .ok o := by
  unfold lstat at h
  split at h
  · cases h
  · rename_i c hc
    obtain ⟨l, hl⟩ := List.getLast?_eq_some_iff.mp hc
    rw [hl, List.dropLast_concat] at h
    cases hparent : fs.resolve fs.maxLinks fs.cwd l with
    | error err =>
      rw [hparent] at h
      cases h
    | ok r =>
      rw [hparent] at h
      refine stat_eq_ok_iff.mpr ⟨by simp [hl], r.2, ?_⟩
      rw [hl, resolve_append, hparent]
      exact (resolve_cons_of_not_link h hlink).trans (resolve_nil _ _)

/-- **The target of a link leads where the link leads**, if it is spelled from the directory of the
link. -/
theorem stat_resolvedTarget (hname : ValidName name)
    (hparent : fs.resolve fs.maxLinks fs.cwd parentPath.components = .ok (d, m))
    (hlookup : fs.lookup d (.normal name) = .ok o) (hlink : fs.node o = .link target)
    (h : fs.stat (parentPath.join name) = .ok o') :
    fs.stat (if target.isAbsolute then target else parentPath.joinPath target) = .ok o' := by
  obtain ⟨-, m', hresolve⟩ := stat_eq_ok_iff.mp h
  rw [hname.components_join, resolve_append, hparent] at hresolve
  -- following the link uses up one of the links that the target has left
  obtain ⟨k, rfl⟩ : ∃ k, m = k + 1 := by
    cases m with
    | zero =>
      change fs.resolve 0 d [.normal name] = _ at hresolve
      rw [resolve_zero_of_link hlookup hlink] at hresolve
      cases hresolve
    | succ k => exact ⟨k, rfl⟩
  change fs.resolve (k + 1) d [.normal name] = _ at hresolve
  rw [resolve_cons_of_link hlookup hlink, List.append_nil] at hresolve
  obtain ⟨j, hj⟩ := Nat.exists_eq_add_of_le (Nat.le_of_succ_le (le_of_resolve hparent))
  have hne := fs.target_ne o target hlink
  by_cases habsolute : target.isAbsolute = true
  · rw [if_pos habsolute]
    refine stat_eq_ok_iff.mpr ⟨hne, m' + j, ?_⟩
    rw [hj, resolve_of_isAbsolute habsolute _ _ d]
    exact resolve_add hresolve j
  · rw [if_neg habsolute]
    by_cases hempty : parentPath.components = []
    · have hjoin : parentPath.joinPath target = target := by simp [Path.joinPath, hempty]
      obtain ⟨rfl, hmax⟩ : fs.cwd = d ∧ fs.maxLinks = k + 1 := by
        simpa [hempty] using hparent
      rw [hjoin]
      refine stat_eq_ok_iff.mpr ⟨hne, m' + 1, ?_⟩
      rw [hmax]
      exact resolve_add hresolve 1
    · have hjoin : parentPath.joinPath target =
          ⟨parentPath.components ++ target.components.filter (· != .curDir)⟩ := by
        simp [Path.joinPath, hempty, habsolute]
      rw [hjoin]
      refine stat_eq_ok_iff.mpr ⟨by simp [hempty], m' + 1, ?_⟩
      rw [resolve_append, hparent]
      exact resolve_filter (resolve_add hresolve 1)

end FileSystem

end JwalkMeta
