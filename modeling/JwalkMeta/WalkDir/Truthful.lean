import JwalkMeta.WalkDir.Coverage

/-!
# What the entries of a walk say

On a Unix file system that does not change, the entries of a walk tell the truth about what their
paths name, whether links are followed or not: `path_is_symlink` tells whether the path names a
link, `metadata` succeeds and reports the type of the entry, and the entry asks for a read if there
is a directory to be read. An error stands for the root or a followed link that leads nowhere or
back, and no directory fails to be read. What is visible in a directory that is read has its item.

Source: `src/lib.rs`, `src/core/dir_entry.rs`.

## Main definitions

* `DirEntry.pathIsSymlink`, `DirEntry.fsMetadata`: `path_is_symlink` and `metadata`.
* `FileSystem.Truthful`: what an entry says is true.
* `FileSystem.Excused`: an error that stands for the root or a link.

## Main results

* `FileSystem.Stands.processed`: what becomes of an entry.
* `FileSystem.walk_truthful`: the items of a walk.
-/

namespace JwalkMeta

open Interaction SerialWalk

variable {B E : Type}

/-- `path_is_symlink`. -/
def DirEntry.pathIsSymlink (e : DirEntry E) : Bool := e.fileType.isSymlink || e.followLink

/-- `Error::from_entry`. -/
def Error.fromEntry (e : DirEntry E) (err : IoError) : Error := ⟨e.depth, .io (some e.path) err⟩

/-- `DirEntry::metadata`, which follows a link if the entry stands for a followed link. -/
def DirEntry.fsMetadata (os : SystemCalls) (e : DirEntry E) : Except Error Metadata :=
  (if e.followLink then os.metadata e.path else os.symlinkMetadata e.path).mapError
    (Error.fromEntry e)

/-- The path that a result is about. -/
def resultPath : Except Error (DirEntry E) → Option Path
  | .error err => err.path
  | .ok e => some e.path

/-- A path that ends in a valid name is put together from its parts. -/
theorem ValidName.rejoined_join {name : OsString} (h : ValidName name) (path : Path) :
    (path.join name).rejoined = path.join name := by
  have hcomponents := h.components_join path
  have hfileName : (path.join name).fileName = some name := by
    simp [Path.fileName, hcomponents]
  have hparent : (path.join name).parent = some path := by
    simp [Path.parent, hcomponents]
  rw [Path.rejoined, hfileName, hparent]
  rfl

namespace FileSystem

variable {ι : Type} {fs : FileSystem ι} {opts : WalkDirOptions B E} {root : Path} {d o : ι}
  {e : DirEntry E}

/-- An entry that has been found where its path says, before links are followed. -/
structure Stands (fs : FileSystem ι) (e : DirEntry E) (o : ι) : Prop where
  lstat_eq : fs.lstat e.path = .ok o
  isDir_eq : e.fileType.isDir = (fs.node o).isDir
  isSymlink_eq : e.fileType.isSymlink = (fs.node o).isLink
  rejoined_eq : e.path.rejoined = e.path
  followLink_eq : e.followLink = false
  readChildrenPath_eq : e.readChildrenPath = if e.fileType.isDir then some e.path else none
  readChildrenError_eq : e.readChildrenError = none

/-- **What an entry says is true.** -/
structure Truthful (fs : FileSystem ι) (e : DirEntry E) : Prop where
  /-- Its path names a link if and only if `path_is_symlink` says so. -/
  pathIsSymlink_eq : ∃ o, fs.lstat e.path = .ok o ∧ e.pathIsSymlink = (fs.node o).isLink
  /-- Its metadata can be read, and has its type. -/
  fsMetadata_eq : ∃ metadata, e.fsMetadata fs.systemCalls = .ok metadata ∧
    metadata.fileType.isDir = e.fileType.isDir ∧ metadata.fileType.isSymlink = e.fileType.isSymlink
  /-- It asks for a read if and only if its path leads to a directory, unless it stands for a link
  below the root that is not followed. -/
  readChildrenPath_iff : ∀ path, e.readChildrenPath = some path ↔
    path = e.path ∧ (∃ d, fs.openDir e.path = .ok d) ∧ (e.fileType.isDir = true ∨ e.depth = 0)
  readChildrenError_eq : e.readChildrenError = none

/-- An error that stands for the root or for a followed link: it leads nowhere, or back. -/
def Excused (fs : FileSystem ι) (opts : WalkDirOptions B E) (root : Path) (err : Error) : Prop :=
  ∃ path, err.path = some path ∧
    ((∃ ioErr, fs.stat path = .error ioErr) ∨ ∃ ancestor, err.inner = .loop ancestor path) ∧
    (path = root ∨ opts.followLinks = true ∧ ∃ o, fs.lstat path = .ok o ∧ (fs.node o).isLink = true)

/-- An item that tells the truth. -/
def Tells (fs : FileSystem ι) (opts : WalkDirOptions B E) (root : Path) :
    Except Error (DirEntry E) → Prop
  | .error err => fs.Excused opts root err
  | .ok e => fs.Truthful e

section Entries

variable [Inhabited E]

theorem metadata_of_stat {path : Path} (h : fs.stat path = .ok d) :
    fs.systemCalls.metadata path = .ok (fs.statx d).metadata := by
  simp [systemCalls, h, Except.map]

theorem metadata_of_stat_error {path : Path} {err : IoError} (h : fs.stat path = .error err) :
    fs.systemCalls.metadata path = .error err := by
  simp [systemCalls, h, Except.map]

theorem symlinkMetadata_of_lstat {path : Path} (h : fs.lstat path = .ok o) :
    fs.systemCalls.symlinkMetadata path = .ok (fs.statx o).metadata := by
  simp [systemCalls, h, Except.map]

omit [Inhabited E] in
/-- A link can be read, so that only a loop keeps it from being followed. -/
theorem Stands.loop_of_linkError (h : fs.Stands e o) (hlink : (fs.node o).isLink = true)
    {err : Error} (herr : e.linkError fs.systemCalls = some err) :
    ∃ ancestor, err = Error.fromLoop e.depth ancestor e.path := by
  obtain ⟨target, hnode⟩ : ∃ target, fs.node o = .link target := by
    cases hnode : fs.node o with
    | link target => exact ⟨target, rfl⟩
    | _ => simp [hnode, Node.isLink] at hlink
  have hread : fs.systemCalls.readLink e.path = .ok target := by
    simp [systemCalls, h.lstat_eq, hnode, Bind.bind, Except.bind, pure, Except.pure]
  simp only [DirEntry.linkError, hread] at herr
  split at herr
  · cases herr
  · obtain ⟨ancestor, -, rfl⟩ := Option.map_eq_some_iff.mp herr
    exact ⟨ancestor.path, rfl⟩

/-- **A followed link** becomes the entry for what it leads to, or it leads nowhere or back. -/
theorem Stands.followed (h : fs.Stands e o) (hlink : (fs.node o).isLink = true) :
    (∃ e', e.followSymlink fs.systemCalls = .ok e' ∧ fs.Truthful e' ∧ e'.path = e.path ∧
      e'.depth = e.depth) ∨
      ∃ err, e.followSymlink fs.systemCalls = .error err ∧ err.path = some e.path ∧
        ((∃ ioErr, fs.stat e.path = .error ioErr) ∨
          ∃ ancestor, err.inner = .loop ancestor e.path) := by
  rw [DirEntry.followSymlink_eq]
  cases hstat : fs.stat e.path with
  | error err =>
    refine Or.inr ⟨Error.fromPath e.depth e.path err, ?_, rfl, Or.inl ⟨err, rfl⟩⟩
    simp [DirEntry.fromPath, metadata_of_stat_error hstat, Except.bind]
  | ok d =>
    obtain ⟨target, htarget, htype⟩ : ∃ target : DirEntry E, DirEntry.fromPath fs.systemCalls
        e.depth e.path e.readMetadata e.readMetadataExt true e.followLinkAncestors = .ok target ∧
          target.fileType = (fs.statx d).metadata.fileType ∧ target.followLink = true ∧
          target.depth = e.depth ∧ target.readChildrenError = none ∧
          target.readChildrenPath = if target.fileType.isDir then some e.path else none := by
      simp only [DirEntry.fromPath, ↓reduceIte, metadata_of_stat hstat]
      exact ⟨_, rfl, rfl, rfl, rfl, rfl, rfl⟩
    obtain ⟨htype, hfollow, hdepth, herror, hread⟩ := htype
    have hpath : target.path = e.path := (DirEntry.path_fromPath htarget).1.trans h.rejoined_eq
    have hdir : target.fileType.isDir = (fs.node d).isDir := by
      rw [htype]
      exact fs.isDir_mode d
    have htruthful : fs.Truthful target := by
      refine ⟨⟨o, by rw [hpath, h.lstat_eq], ?_⟩, ⟨(fs.statx d).metadata, ?_, ?_, ?_⟩,
        fun path => ?_, herror⟩
      · rw [DirEntry.pathIsSymlink, hfollow, Bool.or_true, hlink]
      · rw [DirEntry.fsMetadata, hfollow, if_pos rfl, hpath, metadata_of_stat hstat]
        rfl
      · rw [htype]
      · rw [htype]
      · rw [hread, hpath, Option.ite_none_right_eq_some, Option.some.injEq]
        constructor
        · rintro ⟨hisDir, rfl⟩
          exact ⟨rfl, ⟨d, openDir_of_stat hstat (hdir ▸ hisDir)⟩, Or.inl hisDir⟩
        · rintro ⟨rfl, ⟨d', hopen⟩, -⟩
          obtain rfl := Except.ok.inj (hstat.symm.trans (stat_of_openDir hopen))
          exact ⟨hdir.trans (isDir_of_openDir hopen), rfl⟩
    rw [htarget]
    simp only [Except.bind]
    split_ifs
    · cases herr : e.linkError fs.systemCalls with
      | none => exact Or.inl ⟨target, rfl, htruthful, hpath, hdepth⟩
      | some err =>
        obtain ⟨ancestor, rfl⟩ := h.loop_of_linkError hlink herr
        exact Or.inr ⟨_, rfl, rfl, Or.inr ⟨ancestor, rfl⟩⟩
    · exact Or.inl ⟨target, rfl, htruthful, hpath, hdepth⟩

omit [Inhabited E] in
/-- An entry that is not followed tells the truth if it asks for the right read. -/
theorem Stands.truthful (h : fs.Stands e o) {readChildrenPath : Option Path}
    (hread : ∀ path, readChildrenPath = some path ↔
      path = e.path ∧ (∃ d, fs.openDir e.path = .ok d) ∧ (e.fileType.isDir = true ∨ e.depth = 0)) :
    fs.Truthful { e with readChildrenPath } where
  pathIsSymlink_eq := by
    refine ⟨o, h.lstat_eq, ?_⟩
    rw [DirEntry.pathIsSymlink, h.followLink_eq, Bool.or_false, h.isSymlink_eq]
  fsMetadata_eq := by
    refine ⟨(fs.statx o).metadata, ?_, (fs.isDir_mode o).trans h.isDir_eq.symm,
      (fs.isSymlink_mode o).trans h.isSymlink_eq.symm⟩
    change (if e.followLink then fs.systemCalls.metadata e.path
      else fs.systemCalls.symlinkMetadata e.path).mapError _ = _
    rw [h.followLink_eq, if_neg Bool.false_ne_true, symlinkMetadata_of_lstat h.lstat_eq]
    rfl
  readChildrenPath_iff := hread
  readChildrenError_eq := h.readChildrenError_eq

omit [Inhabited E] in
/-- What is no link leads to a directory if it is one. -/
theorem Stands.readChildrenPath_iff (h : fs.Stands e o)
    (hlink : (fs.node o).isLink = false ∨ e.depth ≠ 0) (path : Path) :
    e.readChildrenPath = some path ↔
      path = e.path ∧ (∃ d, fs.openDir e.path = .ok d) ∧
        (e.fileType.isDir = true ∨ e.depth = 0) := by
  rw [h.readChildrenPath_eq, Option.ite_none_right_eq_some, Option.some.injEq]
  constructor
  · rintro ⟨hisDir, rfl⟩
    have hdir : (fs.node o).isDir = true := h.isDir_eq.symm.trans hisDir
    have hstat := stat_of_lstat h.lstat_eq (Node.isLink_of_isDir hdir)
    exact ⟨rfl, ⟨o, openDir_of_stat hstat hdir⟩, Or.inl hisDir⟩
  · rintro ⟨rfl, ⟨d, hopen⟩, hdir⟩
    refine ⟨?_, rfl⟩
    rcases hdir with hdir | hroot
    · exact hdir
    · have hstat := stat_of_lstat h.lstat_eq (hlink.resolve_right (not_not_intro hroot))
      obtain rfl := Except.ok.inj (hstat.symm.trans (stat_of_openDir hopen))
      exact h.isDir_eq.trans (isDir_of_openDir hopen)

/-- **What becomes of an entry**: one that tells the truth, or the error of a link. -/
theorem Stands.processed (h : fs.Stands e o) (followLinks : Bool) :
    (∃ e', processDirEntryResult fs.systemCalls followLinks (.ok e) = .ok e' ∧ fs.Truthful e' ∧
      e'.path = e.path ∧ e'.depth = e.depth) ∨
      ∃ err, processDirEntryResult fs.systemCalls followLinks (.ok e) = .error err ∧
        err.path = some e.path ∧
        ((∃ ioErr, fs.stat e.path = .error ioErr) ∨
          ∃ ancestor, err.inner = .loop ancestor e.path) ∧
        (fs.node o).isLink = true ∧ (followLinks = true ∨ e.depth = 0) := by
  by_cases hfollow : (followLinks && e.fileType.isSymlink) = true
  · obtain ⟨hfollows, hsymlink⟩ := Bool.and_eq_true_iff.mp hfollow
    have hlink : (fs.node o).isLink = true := h.isSymlink_eq.symm.trans hsymlink
    rw [processDirEntryResult_of_link _ hfollow]
    rcases h.followed hlink with hok | ⟨err, herr, hpath, hwhy⟩
    · exact Or.inl hok
    · exact Or.inr ⟨err, herr, hpath, hwhy, hlink, Or.inl hfollows⟩
  · rw [Bool.not_eq_true] at hfollow
    rw [processDirEntryResult_of_unfollowed _ hfollow]
    by_cases hroot : (!followLinks && e.depth == 0 && e.fileType.isSymlink) = true
    · -- a link at the root is read if it leads to a directory
      obtain ⟨⟨-, hdepth⟩, hsymlink⟩ : (followLinks = false ∧ e.depth = 0) ∧
          e.fileType.isSymlink = true := by simpa using hroot
      rw [if_pos hroot]
      cases hstat : fs.stat e.path with
      | error err =>
        rw [metadata_of_stat_error hstat]
        exact Or.inr ⟨_, rfl, rfl, Or.inl ⟨err, rfl⟩, h.isSymlink_eq.symm.trans hsymlink,
          Or.inr hdepth⟩
      | ok d =>
        have hdir : (fs.statx d).metadata.fileType.isDir = (fs.node d).isDir := fs.isDir_mode d
        have hnone : e.readChildrenPath = none := by
          have hfile : e.fileType.isDir = false := by
            by_contra hisDir
            simp [FileType.isSymlink_of_isDir (by simpa using hisDir)] at hsymlink
          rw [h.readChildrenPath_eq, hfile]
          rfl
        rw [metadata_of_stat hstat]
        by_cases hisDir : (fs.statx d).metadata.fileType.isDir = true
        · simp only [hisDir, ↓reduceIte]
          refine Or.inl ⟨_, rfl, h.truthful fun path => ?_, rfl, rfl⟩
          rw [Option.some.injEq, eq_comm]
          exact ⟨fun hpath => ⟨hpath, ⟨d, openDir_of_stat hstat (hdir ▸ hisDir)⟩, Or.inr hdepth⟩,
            And.left⟩
        · simp only [hisDir]
          refine Or.inl ⟨e, rfl, h.truthful fun path => ?_, rfl, rfl⟩
          rw [hnone]
          refine ⟨fun hpath => (by cases hpath), fun ⟨_, ⟨d', hopen⟩, _⟩ => ?_⟩
          obtain rfl := Except.ok.inj (hstat.symm.trans (stat_of_openDir hopen))
          exact absurd (hdir.trans (isDir_of_openDir hopen)) hisDir
    · rw [if_neg hroot]
      refine Or.inl ⟨e, rfl, h.truthful (h.readChildrenPath_iff ?_), rfl, rfl⟩
      rw [← h.isSymlink_eq]
      cases hsymlink : e.fileType.isSymlink with
      | false => exact Or.inl rfl
      | true =>
        rw [hsymlink, Bool.and_true] at hfollow hroot
        exact Or.inr (by simpa [hfollow] using hroot)

end Entries

/-! ### The listing of a directory -/

section Listing

variable [Inhabited E] {entry : OsString × ι} {result : Except Error (DirEntry E)}
  {spec : ReadDirSpec B}

/-- The result for an entry of a directory. -/
theorem EntryResult.tells {req : ReadRequest B} (h : fs.EntryResult opts req entry result)
    (root : Path) (hdepth : req.readDirContentsDepth ≠ 0) (hstat : fs.stat req.path = .ok d)
    (hentry : entry ∈ (fs.node d).entries) :
    fs.Tells opts root result ∧ resultPath result = some (req.path.join entry.1) ∧
      ∀ e, result = .ok e → e.depth = req.readDirContentsDepth := by
  obtain ⟨metadata, metadataExt, fileType, hdir, hlink, rfl⟩ := h
  have hname := fs.validName d entry hentry
  have hstands : fs.Stands (DirEntry.fromRaw (E := E) req.readDirContentsDepth req.path metadata
      metadataExt entry.1 fileType req.followLinkAncestors) entry.2 :=
    ⟨lstat_entry hstat hentry, hdir, hlink, hname.rejoined_join req.path, rfl, rfl, rfl⟩
  rcases hstands.processed opts.followLinks with ⟨e', hok, htruthful, hpath, hdepth'⟩ |
    ⟨err, herr, hpath, hwhy, hlink', hfollow⟩
  · rw [hok]
    refine ⟨htruthful, congrArg some hpath, fun e he => ?_⟩
    obtain rfl := Except.ok.inj he
    exact hdepth'
  · rw [herr]
    refine ⟨⟨_, hpath, hwhy, Or.inr ⟨hfollow.resolve_right hdepth, entry.2, hstands.lstat_eq,
      hlink'⟩⟩, hpath, fun e he => (by cases he)⟩

/-- **The read of a directory** succeeds, its results tell the truth, and what is visible in the
directory has its result. -/
theorem exists_listing (getdents : Bool) (root : Path) (hprocess : opts.processReadDir = none)
    (hopen : fs.openDir spec.path = .ok d) :
    ∃ readDir, (coreReadDirCallback (E := E) (fs.host getdents) opts).read spec = .ok readDir ∧
      (∀ result ∈ readDir.resultsList, fs.Tells opts root result) ∧
      (saturatingAdd spec.depth 1 ≤ opts.maxDepth → ∀ entry ∈ (fs.node d).entries,
        visible opts entry = true → ∃ result ∈ readDir.resultsList,
          resultPath result = some (spec.path.join entry.1) ∧
            ∀ e, result = .ok e → e.depth = saturatingAdd spec.depth 1) := by
  rcases Nat.lt_or_ge opts.maxDepth (saturatingAdd spec.depth 1) with hmax | hmax
  · refine ⟨.new spec.clientReadState [], ?_, fun result hresult => absurd hresult ?_, ?_⟩
    · rw [ReadDirCallback.read, callback_of_maxDepth hmax]
      rfl
    · exact List.not_mem_nil
    · exact fun hle => absurd hle (Nat.not_le.mpr hmax)
  · obtain ⟨count, results, hresults, hread⟩ := (readOf_callback (E := E) getdents hprocess hmax
      hopen none).returns _ (mayReturn_value _ _)
    have hperm := finishReadDir_perm hprocess (readRequest fs.systemCalls opts spec none) count
      (((fs.node d).entries.filter (visible opts)).map results)
    have htells (entry : OsString × ι) (hentry : entry ∈ (fs.node d).entries) :=
      (hresults entry hentry).tells root (saturatingAdd_one_ne_zero _)
        (stat_of_openDir hopen) hentry
    refine ⟨_, hread, fun result hresult => ?_, fun _ entry hentry hvisible => ?_⟩
    · obtain ⟨entry, hmem, rfl⟩ := List.mem_map.mp (hperm.mem_iff.mp hresult)
      exact (htells entry (List.mem_of_mem_filter hmem)).1
    · exact ⟨results entry, hperm.mem_iff.mpr (List.mem_map_of_mem
        (List.mem_filter.mpr ⟨hentry, hvisible⟩)), (htells entry hentry).2⟩

end Listing

/-! ### The walk -/

section Walk

variable [Inhabited E] {getdents : Bool} {state : B} {results : List (Except Error (DirEntry E))}
  {forest : Forest (Visit E)}

omit [Inhabited E] in
/-- The read that an entry asks for is the read of a directory. -/
theorem Truthful.exists_openDir (h : fs.Truthful e) {spec : ReadDirSpec B}
    (hspec : e.readChildrenSpec state = some spec) : ∃ d, fs.openDir spec.path = .ok d := by
  obtain ⟨path, hpath, rfl⟩ := Option.map_eq_some_iff.mp hspec
  obtain ⟨rfl, hopen, -⟩ := (h.readChildrenPath_iff path).mp hpath
  exact hopen

/-- **Every result of a walk tells the truth**, and no directory fails to be read. -/
theorem tells_of_unfolds (root : Path) (hprocess : opts.processReadDir = none)
    (h : Unfolds (coreReadDirCallback (fs.host getdents) opts).read state results forest)
    (hresults : ∀ result ∈ results, fs.Tells opts root result) :
    ∀ visit ∈ forest.labels, visit.readError = none ∧ fs.Tells opts root visit.result := by
  induction h with
  | nil => exact fun visit hvisit => absurd hvisit List.not_mem_nil
  | error hrest ih =>
    obtain ⟨hfirst, hlast⟩ := List.forall_mem_cons.mp hresults
    simpa [hfirst] using ih hlast
  | entry hspec hrest ih =>
    obtain ⟨hfirst, hlast⟩ := List.forall_mem_cons.mp hresults
    simpa [hfirst] using ih hlast
  | failed hspec hread hrest ih =>
    have hfirst : fs.Truthful _ := hresults _ List.mem_cons_self
    obtain ⟨d, hopen⟩ := hfirst.exists_openDir hspec
    obtain ⟨readDir, hok, -⟩ := exists_listing getdents root hprocess hopen
    cases hread.symm.trans hok
  | listed hspec hread hdir hrest ihdir ihrest =>
    obtain ⟨hfirst, hlast⟩ := List.forall_mem_cons.mp hresults
    obtain ⟨d, hopen⟩ := Truthful.exists_openDir hfirst hspec
    obtain ⟨readDir, hok, htells, -⟩ := exists_listing getdents root hprocess hopen
    obtain rfl := Except.ok.inj (hread.symm.trans hok)
    rw [Forest.labels_node]
    refine List.forall_mem_cons.mpr ⟨⟨rfl, hfirst⟩, List.forall_mem_append.mpr
      ⟨ihdir htells, ihrest hlast⟩⟩

/-- **The root tells the truth.** -/
theorem tells_root (fs : FileSystem ι) (getdents : Bool) (opts : WalkDirOptions B E)
    (hroot : root.rejoined = root) :
    fs.Tells opts root (processDirEntryResult (fs.host getdents).systemCalls opts.followLinks
        (rootEntry (E := E) (fs.host getdents).systemCalls opts root)) ∧
      resultPath (processDirEntryResult (fs.host getdents).systemCalls opts.followLinks
        (rootEntry (E := E) (fs.host getdents).systemCalls opts root)) = some root := by
  rw [systemCalls_host]
  cases hlstat : fs.lstat root with
  | error err =>
    have hentry : rootEntry (E := E) fs.systemCalls opts root =
        .error (Error.fromPath 0 root err) := by
      simp [rootEntry, DirEntry.fromPath, systemCalls, hlstat, Except.map]
    rw [hentry]
    refine ⟨⟨root, rfl, Or.inl ?_, Or.inl rfl⟩, rfl⟩
    cases hstat : fs.stat root with
    | error err' => exact ⟨err', rfl⟩
    | ok d =>
      obtain ⟨o, ho⟩ := exists_lstat_of_stat hstat
      cases hlstat.symm.trans ho
  | ok o =>
    obtain ⟨e, hentry, hstands, hpath⟩ : ∃ e : DirEntry E,
        rootEntry fs.systemCalls opts root = .ok e ∧ fs.Stands e o ∧ e.path = root := by
      simp only [rootEntry, DirEntry.fromPath, Bool.false_eq_true, ↓reduceIte,
        symlinkMetadata_of_lstat hlstat]
      have hpath : ((root.parent.getD ⟨[]⟩).join (root.fileName.getD root.asOsStr)) = root := hroot
      refine ⟨_, rfl, ⟨?_, fs.isDir_mode o, fs.isSymlink_mode o, ?_, rfl, ?_, rfl⟩, hpath⟩
      · exact (congrArg fs.lstat hpath).trans hlstat
      · exact (congrArg Path.rejoined hpath).trans (hroot.trans hpath.symm)
      · rw [DirEntry.path, hpath]
    rw [hentry]
    rcases hstands.processed opts.followLinks with ⟨e', hok, htruthful, hpath', -⟩ |
      ⟨err, herr, hpath', hwhy, -⟩
    · rw [hok]
      exact ⟨htruthful, congrArg some (hpath'.trans hpath)⟩
    · rw [herr]
      rw [hpath] at hpath' hwhy
      exact ⟨⟨root, hpath', hwhy, Or.inl rfl⟩, hpath'⟩

omit [Inhabited E] in
theorem result_of_emit {minDepth : ℕ} {result item : Except Error (DirEntry E)}
    (h : Visit.emit minDepth ⟨result, none⟩ = some item) : result = item := by
  cases result with
  | error err => exact Option.some.inj h
  | ok e => exact (Option.ite_none_right_eq_some.mp h).2 |> Option.some.inj

omit [Inhabited E] in
theorem emit_of_result {minDepth : ℕ} {visit : Visit E} (hnone : visit.readError = none)
    (hdepth : ∀ e, visit.result = .ok e → minDepth ≤ e.depth) :
    visit.emit minDepth = some visit.result := by
  obtain ⟨result, readError⟩ := visit
  obtain rfl : readError = none := hnone
  cases result with
  | error err => rfl
  | ok e => exact if_pos (hdepth e rfl)

/-- **What a walk says about a file system is true**, whether it follows links or not. On a file
system that does not change and where every directory can be opened, with Linux and elsewhere, from
a root whose path is put together again, with all options but a client's callback: when a serial
walk, or a parallel walk that keeps to its order, has come to its end, its entries tell the truth,
and its errors stand for the root or for followed links that lead nowhere or back. The root has its
item, and so has everything that is visible in a directory that an entry asks to
read, down to the maximal depth. -/
theorem walk_truthful (fs : FileSystem ι) (getdents : Bool) (opts : WalkDirOptions B E)
    (hprocess : opts.processReadDir = none) (root : Path) (hroot : root.rejoined = root) (state : B)
    (minDepth : ℕ) (items : List (Except Error (DirEntry E)))
    (h : Completes (fs.host getdents) opts root state minDepth items) :
    (∀ e, .ok e ∈ items → fs.Truthful e) ∧
      (∀ err, .error err ∈ items → fs.Excused opts root err) ∧
      (minDepth = 0 → ∃ item ∈ items, resultPath item = some root) ∧
      ∀ e, .ok e ∈ items → ∀ path ∈ e.readChildrenPath, ∀ d, fs.openDir path = .ok d →
        minDepth ≤ saturatingAdd e.depth 1 → saturatingAdd e.depth 1 ≤ opts.maxDepth →
        ∀ entry ∈ (fs.node d).entries, visible opts entry = true →
          ∃ item ∈ items, resultPath item = some (path.join entry.1) := by
  obtain ⟨forest, hforest, rfl⟩ := h.unfolds (length_rootSpecs_le hprocess)
  obtain ⟨hfirst, hfirstPath⟩ := tells_root (E := E) fs getdents opts hroot
  have hresults := rootResults_of_none (E := E) (fs.host getdents) hprocess root state
  have htells := tells_of_unfolds root hprocess hforest
    (by rw [hresults]; exact List.forall_mem_singleton.mpr hfirst)
  have hvisit {item : Except Error (DirEntry E)}
      (hitem : item ∈ forest.labels.filterMap (Visit.emit minDepth)) :
      ⟨item, none⟩ ∈ forest.labels := by
    obtain ⟨⟨result, readError⟩, hmem, hemit⟩ := List.mem_filterMap.mp hitem
    obtain rfl : readError = none := (htells _ hmem).1
    rwa [result_of_emit hemit] at hmem
  have hitem {visit : Visit E} (hmem : visit ∈ forest.labels)
      (hdepth : ∀ e, visit.result = .ok e → minDepth ≤ e.depth) :
      visit.result ∈ forest.labels.filterMap (Visit.emit minDepth) :=
    List.mem_filterMap.mpr ⟨visit, hmem, emit_of_result (htells visit hmem).1 hdepth⟩
  refine ⟨fun e he => (htells _ (hvisit he)).2, fun err herr => (htells _ (hvisit herr)).2, ?_, ?_⟩
  · rintro rfl
    have hroots := hforest.map_result_roots
    rw [hresults] at hroots
    obtain ⟨visit, hmem, hresult⟩ := List.mem_map.mp (hroots ▸ List.mem_singleton_self _)
    refine ⟨visit.result, hitem (Forest.mem_labels_of_mem_roots hmem) fun _ _ => Nat.zero_le _, ?_⟩
    rw [hresult, hfirstPath]
  · intro e he path hpath d hopen hmin hmax entry hentry hvisible
    obtain ⟨spec, readDir, rfl, hdepth, hread, hlisted⟩ := hforest.exists_read (hvisit he) hpath
    obtain ⟨readDir', hok, -, hall⟩ :=
      exists_listing (E := E) getdents root hprocess hopen
    obtain rfl := Except.ok.inj (hread.symm.trans hok)
    rw [hdepth] at hall
    obtain ⟨result, hresult, hresultPath, hresultDepth⟩ := hall hmax entry hentry hvisible
    obtain ⟨visit, hmem, rfl⟩ := hlisted result hresult
    exact ⟨visit.result, hitem hmem fun e' he' => (hresultDepth e' he').symm ▸ hmin, hresultPath⟩

end Walk

/-- Following links down to depth 2. -/
def shallowFollowOptions : WalkDirOptions Unit Unit := { followOptions with maxDepth := 2 }

/-- The statement above for the walk from `/` that follows links down to depth 2: it yields `/`,
`/r`, the link `/r/a`, which it has followed, `/x`, and an error for the link `/x/b`. -/
theorem walk_truthful_linked :
    ∃ items : List (Except Error (DirEntry Unit)),
      Completes (linkedFs.host true) shallowFollowOptions ⟨[.rootDir]⟩ () 0 items ∧
      (items.map fun item => item.toOption.map DirEntry.pathIsSymlink) =
        [some false, some false, some true, some false, none] ∧
      (∀ e, .ok e ∈ items → linkedFs.Truthful e) ∧
      ∀ err, .error err ∈ items → linkedFs.Excused shallowFollowOptions ⟨[.rootDir]⟩ err := by
  have hserial : Completes (linkedFs.host true) shallowFollowOptions ⟨[.rootDir]⟩ () 0
      ((serialWalk (rootEntryResults (linkedFs.host true) shallowFollowOptions ⟨[.rootDir]⟩ ())
        0).steps (coreReadDirCallback (linkedFs.host true) shallowFollowOptions) 20).iter.items :=
    .serial ⟨20, by decide +kernel, rfl⟩
  obtain ⟨hentries, herrors, -⟩ := walk_truthful linkedFs true shallowFollowOptions rfl
    ⟨[.rootDir]⟩ (by decide +kernel) () 0 _ hserial
  exact ⟨_, hserial, by decide +kernel, hentries, herrors⟩

end FileSystem

end JwalkMeta
