import JwalkMeta.WalkDir.Loops
import JwalkMeta.WalkDir.Order

/-!
# What a walk covers

On a file system that does not change, a walk that does not follow links yields no error, and it
yields one entry for everything that can be reached from the directory of the root through visible
names, down to the maximal depth and from the minimal depth on. A root that is a link to a directory
is read as well.

## Main definitions

* `FileSystem.Shown`: what a walk should yield.
* `FileSystem.Describes`: an entry for what is there.

## Main results

* `FileSystem.walk_covers`: a walk yields exactly what it should.
-/

namespace JwalkMeta

open Interaction SerialWalk

variable {B E : Type}

namespace FileSystem

variable {ι : Type} {fs : FileSystem ι} {opts : WalkDirOptions B E} {root : Path}
  {d o top : ι} {name : OsString} {names below : List OsString} {e : DirEntry E}

/-! ### Entries for what is there -/

/-- **What a walk should yield**: names that lead to an object from the directory of the root, if
none of them is left out as hidden and there are not too many. -/
structure Shown (fs : FileSystem ι) (opts : WalkDirOptions B E) (top : ι) (names : List OsString)
    (o : ι) : Prop where
  descend_eq : descend fs.node top names = some o
  not_hidden : opts.skipHidden = true → ∀ name ∈ names, isHidden name = false
  le_maxDepth : min names.length usizeMax ≤ opts.maxDepth

/-- **An entry for what is there** under names from the root on: it stands at their path and in
their depth, it has the type of what this path names, and no error. -/
structure Describes (fs : FileSystem ι) (root : Path) (names : List OsString) (e : DirEntry E) :
    Prop where
  path_eq : e.path.components = root.components ++ names.map .normal
  depth_eq : e.depth = min names.length usizeMax
  type_eq : ∃ o, fs.lstat e.path = .ok o ∧ e.fileType.isDir = (fs.node o).isDir ∧
    e.fileType.isSymlink = (fs.node o).isLink
  readChildrenError : e.readChildrenError = none

/-- Such an entry is read if there is a directory. -/
structure Enters (fs : FileSystem ι) (root : Path) (names : List OsString) (o : ι)
    (e : DirEntry E) : Prop extends fs.Describes root names e where
  stat_eq : (fs.node o).isDir = true → fs.stat e.path = .ok o
  readChildrenPath : e.readChildrenPath = if (fs.node o).isDir then some e.path else none

/-- Going down one directory more. -/
theorem descend_concat {node : ι → Node ι} (h : descend node top names = some d) (name : OsString) :
    descend node top (names ++ [name]) = (node d).entries.lookup name := by
  induction names generalizing top with
  | nil =>
    obtain rfl : top = d := Option.some.inj h
    cases hlookup : (node top).entries.lookup name <;> simp [descend, hlookup]
  | cons first names ih =>
    obtain ⟨o, hlookup, hdescend⟩ := Option.bind_eq_some_iff.mp h
    simpa [descend, hlookup] using ih hdescend

theorem lookup_entries_of_mem (h : (name, o) ∈ (fs.node d).entries) :
    (fs.node d).entries.lookup name = some o := by
  have hlookup := lookup_of_mem h
  simp only [lookup, Node.isDir_of_mem h, ↓reduceIte] at hlookup
  split at hlookup
  · rename_i found hfound
    rw [hfound, Except.ok.inj hlookup]
  · cases hlookup

theorem mem_of_lookup_entries (h : (fs.node d).entries.lookup name = some o) :
    (name, o) ∈ (fs.node d).entries := by
  obtain ⟨before, after, hsplit, -⟩ := List.lookup_eq_some_iff.mp h
  simp [hsplit]

/-- What is opened is a directory. -/
theorem isDir_of_openDir {path : Path} (h : fs.openDir path = .ok d) :
    (fs.node d).isDir = true := by
  simp only [openDir, stat_of_openDir h, Bind.bind, Except.bind] at h
  split_ifs at h with hdir
  exact hdir

omit fs in
theorem visible_iff {e : OsString × ι} :
    visible opts e = true ↔ (opts.skipHidden = true → isHidden e.1 = false) := by
  cases hskip : opts.skipHidden <;> simp [visible, hskip]

/-- What stands in a directory that should be yielded. -/
theorem Shown.entry (h : fs.Shown opts top names d) (he : (name, o) ∈ (fs.node d).entries)
    (hvisible : visible opts (name, o) = true)
    (hdepth : min (names.length + 1) usizeMax ≤ opts.maxDepth) :
    fs.Shown opts top (names ++ [name]) o where
  descend_eq := by rw [descend_concat h.descend_eq, lookup_entries_of_mem he]
  not_hidden := by
    intro hskip name' hname'
    rcases List.mem_append.mp hname' with hmem | hmem
    · exact h.not_hidden hskip name' hmem
    · rw [List.mem_singleton.mp hmem]
      exact visible_iff.mp hvisible hskip
  le_maxDepth := by simpa using hdepth

/-! ### The listing of a directory -/

section Listing

variable [Inhabited E] {getdents : Bool} {spec : ReadDirSpec B}
  (hprocess : opts.processReadDir = none) (hfollow : opts.followLinks = false)

include hfollow in
/-- The entry that stands for what a directory holds. -/
theorem EntryResult.enters {req : ReadRequest B} {result : Except Error (DirEntry E)}
    (h : fs.EntryResult opts req (name, o) result) (hstat : fs.stat req.path = .ok d)
    (he : (name, o) ∈ (fs.node d).entries)
    (hpath : req.path.components = root.components ++ names.map .normal)
    (hdepth : req.readDirContentsDepth = min (names.length + 1) usizeMax) :
    ∃ e, result = .ok e ∧ fs.Enters root (names ++ [name]) o e := by
  obtain ⟨metadata, metadataExt, fileType, hdir, hlink, rfl⟩ := h
  have hne : req.readDirContentsDepth ≠ 0 := by
    have : 0 < usizeMax := by decide
    omega
  have hvalid : ValidName name := fs.validName d _ he
  have hlstat : fs.lstat (req.path.join name) = .ok o := lstat_entry hstat he
  refine ⟨_, processDirEntryResult_of_not_link fs.systemCalls (by rw [hfollow]; rfl) hne, ?_⟩
  refine ⟨⟨?_, ?_, ⟨o, hlstat, hdir, hlink⟩, rfl⟩, fun hisDir => ?_, ?_⟩
  · change (req.path.join name).components = _
    rw [hvalid.components_join, hpath, List.append_assoc, List.map_append]
    rfl
  · change req.readDirContentsDepth = _
    rw [hdepth, List.length_append]
    rfl
  · exact stat_of_lstat hlstat (Node.isLink_of_isDir hisDir)
  · change (if fileType.isDir then some (req.path.join name) else none) = _
    rw [hdir]
    rfl

include hprocess hfollow

/-- **The read of a directory** succeeds, and it lists what is visible in the directory. -/
theorem exists_read (getdents : Bool) (hstat : fs.stat spec.path = .ok d)
    (hdir : (fs.node d).isDir = true)
    (hpath : spec.path.components = root.components ++ names.map .normal)
    (hdepth : spec.depth = min names.length usizeMax) :
    ∃ readDir, (coreReadDirCallback (E := E) (fs.host getdents) opts).read spec = .ok readDir ∧
      (∀ result ∈ readDir.resultsList, ∃ name o e, result = .ok e ∧
        (name, o) ∈ (fs.node d).entries ∧ visible opts (name, o) = true ∧
        min (names.length + 1) usizeMax ≤ opts.maxDepth ∧
        fs.Enters root (names ++ [name]) o e) ∧
      ∀ name o, (name, o) ∈ (fs.node d).entries → visible opts (name, o) = true →
        min (names.length + 1) usizeMax ≤ opts.maxDepth →
        ∃ e, .ok e ∈ readDir.resultsList ∧ fs.Enters root (names ++ [name]) o e := by
  have hcontents : saturatingAdd spec.depth 1 = min (names.length + 1) usizeMax := by
    rw [saturatingAdd, hdepth]
    omega
  rcases Nat.lt_or_ge opts.maxDepth (saturatingAdd spec.depth 1) with hmax | hmax
  · refine ⟨.new spec.clientReadState [], ?_, fun result hresult => absurd hresult ?_,
      fun name o _ _ hle => ?_⟩
    · rw [ReadDirCallback.read, callback_of_maxDepth hmax]
      rfl
    · exact List.not_mem_nil
    · omega
  · obtain ⟨count, results, hresults, hread⟩ := (readOf_callback (E := E) getdents hprocess hmax
      (openDir_of_stat hstat hdir) none).returns _ (mayReturn_value _ _)
    have hperm := finishReadDir_perm hprocess (readRequest fs.systemCalls opts spec none) count
      (((fs.node d).entries.filter (visible opts)).map results)
    have henters (name : OsString) (o : ι) (he : (name, o) ∈ (fs.node d).entries) :
        ∃ e, results (name, o) = .ok e ∧ fs.Enters root (names ++ [name]) o e :=
      (hresults _ he).enters hfollow hstat he hpath hcontents
    refine ⟨_, hread, fun result hresult => ?_, fun name o he hvisible _ => ?_⟩
    · obtain ⟨⟨name, o⟩, hmem, rfl⟩ := List.mem_map.mp (hperm.mem_iff.mp hresult)
      obtain ⟨he, hvisible⟩ := List.mem_filter.mp hmem
      obtain ⟨e, hresult, henter⟩ := henters name o he
      exact ⟨name, o, e, hresult, he, hvisible, hcontents ▸ hmax, henter⟩
    · obtain ⟨e, hresult, henter⟩ := henters name o he
      refine ⟨e, hperm.mem_iff.mpr ?_, henter⟩
      rw [← hresult]
      exact List.mem_map_of_mem (List.mem_filter.mpr ⟨he, hvisible⟩)

end Listing

/-! ### The forest of a walk -/

section Forests

variable [Inhabited E] {getdents : Bool} {state : B} {results : List (Except Error (DirEntry E))}
  {forest : Forest (Visit E)} (hprocess : opts.processReadDir = none)
  (hfollow : opts.followLinks = false)

omit [Inhabited E] in
/-- The read that an entry asks for is the read of the directory that it stands for. -/
theorem Enters.isDir {spec : ReadDirSpec B} (h : fs.Enters root names o e)
    (hspec : e.readChildrenSpec state = some spec) :
    (fs.node o).isDir = true ∧ fs.stat spec.path = .ok o ∧
      spec.path.components = root.components ++ names.map .normal ∧
      spec.depth = min names.length usizeMax := by
  obtain ⟨path, hpath, rfl⟩ := Option.map_eq_some_iff.mp hspec
  rw [h.readChildrenPath, Option.ite_none_right_eq_some] at hpath
  obtain ⟨hdir, hpath⟩ := hpath
  obtain rfl := Option.some.inj hpath
  exact ⟨hdir, h.stat_eq hdir, h.path_eq, h.depth_eq⟩

include hprocess hfollow

/-- The walk yields nothing else, and no directory fails to be read. -/
theorem shown_of_unfolds
    (h : Unfolds (coreReadDirCallback (fs.host getdents) opts).read state results forest)
    (hresults : ∀ result ∈ results, ∃ names o e, result = .ok e ∧ fs.Shown opts top names o ∧
      fs.Enters root names o e) :
    ∀ visit ∈ forest.labels, ∃ names o e, visit = ⟨.ok e, none⟩ ∧ fs.Shown opts top names o ∧
      fs.Enters root names o e := by
  induction h with
  | nil => exact fun visit hvisit => absurd hvisit List.not_mem_nil
  | @error state err rest forest hrest ih =>
    obtain ⟨_, _, _, herr, -⟩ := hresults _ List.mem_cons_self
    cases herr
  | @entry state dirEntry rest forest hspec hrest ih =>
    intro visit hvisit
    rw [Forest.labels_node, List.mem_cons, Forest.labels_nil, List.nil_append] at hvisit
    rcases hvisit with rfl | hvisit
    · obtain ⟨names, o, e, he, hshown⟩ := hresults _ List.mem_cons_self
      exact ⟨names, o, e, by rw [he], hshown⟩
    · exact ih (fun result hmem => hresults result (List.mem_cons_of_mem _ hmem)) visit hvisit
  | @failed state dirEntry spec err rest forest hspec hread hrest ih =>
    obtain ⟨names, o, e, he, -, henters⟩ := hresults _ List.mem_cons_self
    obtain rfl := Except.ok.inj he
    obtain ⟨hdir, hstat, hpath, hdepth⟩ := henters.isDir hspec
    obtain ⟨readDir, hok, -⟩ := exists_read hprocess hfollow getdents hstat hdir hpath hdepth
    rw [hread] at hok
    cases hok
  | @listed state dirEntry spec readDir rest below forest hspec hread hdir hrest ihdir ihrest =>
    obtain ⟨names, o, e, he, hshown, henters⟩ := hresults _ List.mem_cons_self
    obtain rfl := Except.ok.inj he
    obtain ⟨hisDir, hstat, hpath, hdepth⟩ := henters.isDir hspec
    obtain ⟨_, hok, hlisted, -⟩ := exists_read hprocess hfollow getdents hstat hisDir hpath hdepth
    obtain rfl := Except.ok.inj (hread.symm.trans hok)
    intro visit hvisit
    rw [Forest.labels_node, List.mem_cons, List.mem_append] at hvisit
    rcases hvisit with rfl | hvisit | hvisit
    · exact ⟨names, o, dirEntry, rfl, hshown, henters⟩
    · refine ihdir (fun result hmem => ?_) visit hvisit
      obtain ⟨name, o', e, hresult, hmem', hvisible, hmax, henters'⟩ := hlisted result hmem
      exact ⟨_, o', e, hresult, hshown.entry hmem' hvisible hmax, henters'⟩
    · exact ihrest (fun result hmem => hresults result (List.mem_cons_of_mem _ hmem)) visit hvisit

/-- The walk leaves nothing out. -/
theorem exists_visit_of_unfolds
    (h : Unfolds (coreReadDirCallback (fs.host getdents) opts).read state results forest)
    {e : DirEntry E} (he : .ok e ∈ results) (henters : fs.Enters root names d e)
    (hdescend : descend fs.node d below = some o)
    (hhidden : opts.skipHidden = true → ∀ name ∈ below, isHidden name = false)
    (hmax : min (names.length + below.length) usizeMax ≤ opts.maxDepth) :
    ∃ visit ∈ forest.labels, ∃ e', visit.result = .ok e' ∧
      fs.Describes root (names ++ below) e' := by
  induction h generalizing names d below e with
  | nil => exact absurd he List.not_mem_nil
  | @error state err rest forest hrest ih =>
    rcases List.mem_cons.mp he with herr | hmem
    · cases herr
    · obtain ⟨visit, hvisit, hshows⟩ := ih hmem henters hdescend hhidden hmax
      exact ⟨visit, by simp [hvisit], hshows⟩
  | @entry state dirEntry rest forest hspec hrest ih =>
    rcases List.mem_cons.mp he with hfirst | hmem
    · -- an entry without a directory has nothing below it
      obtain rfl := Except.ok.inj hfirst
      cases below with
      | nil => exact ⟨_, List.mem_cons_self, e, rfl, by simpa using henters.toDescribes⟩
      | cons name below =>
        obtain ⟨o', hlookup, -⟩ := Option.bind_eq_some_iff.mp hdescend
        simp [DirEntry.readChildrenSpec, henters.readChildrenPath,
          Node.isDir_of_mem (mem_of_lookup_entries hlookup)] at hspec
    · obtain ⟨visit, hvisit, hshows⟩ := ih hmem henters hdescend hhidden hmax
      exact ⟨visit, by simp [hvisit], hshows⟩
  | @failed state dirEntry spec err rest forest hspec hread hrest ih =>
    rcases List.mem_cons.mp he with hfirst | hmem
    · obtain rfl := Except.ok.inj hfirst
      obtain ⟨hdir, hstat, hpath, hdepth⟩ := henters.isDir hspec
      obtain ⟨readDir, hok, -⟩ := exists_read hprocess hfollow getdents hstat hdir hpath hdepth
      rw [hread] at hok
      cases hok
    · obtain ⟨visit, hvisit, hshows⟩ := ih hmem henters hdescend hhidden hmax
      exact ⟨visit, by simp [hvisit], hshows⟩
  | @listed state dirEntry spec readDir rest below' forest hspec hread hdir hrest ihdir ihrest =>
    rcases List.mem_cons.mp he with hfirst | hmem
    · obtain rfl := Except.ok.inj hfirst
      cases below with
      | nil => exact ⟨_, List.mem_cons_self, e, rfl, by simpa using henters.toDescribes⟩
      | cons name below =>
        obtain ⟨hisDir, hstat, hpath, hdepth⟩ := henters.isDir hspec
        obtain ⟨_, hok, -, hlists⟩ :=
          exists_read hprocess hfollow getdents hstat hisDir hpath hdepth
        obtain rfl := Except.ok.inj (hread.symm.trans hok)
        obtain ⟨o', hlookup, hdescend'⟩ := Option.bind_eq_some_iff.mp hdescend
        rw [List.length_cons] at hmax
        obtain ⟨e', hmem', henters'⟩ := hlists name o' (mem_of_lookup_entries hlookup)
          (visible_iff.mpr fun hskip => hhidden hskip name List.mem_cons_self) (by omega)
        obtain ⟨visit, hvisit, hshows⟩ := ihdir hmem' henters' hdescend'
          (fun hskip name' hname' => hhidden hskip name' (List.mem_cons_of_mem _ hname'))
          (by rw [List.length_append, List.length_singleton]; omega)
        exact ⟨visit, by simp [hvisit], by simpa using hshows⟩
    · obtain ⟨visit, hvisit, hshows⟩ := ihrest hmem henters hdescend hhidden hmax
      exact ⟨visit, by simp [hvisit], hshows⟩

end Forests

/-! ### The root -/

/-- A path that leads somewhere names something. -/
theorem exists_lstat_of_stat (h : fs.stat root = .ok d) : ∃ o, fs.lstat root = .ok o := by
  obtain ⟨hne, m, hresolve⟩ := stat_eq_ok_iff.mp h
  obtain ⟨before, last, hsplit⟩ : ∃ before last, root.components = before ++ [last] :=
    ⟨_, _, (List.dropLast_append_getLast hne).symm⟩
  rw [hsplit, resolve_append] at hresolve
  cases hbefore : fs.resolve fs.maxLinks fs.cwd before with
  | error err =>
    rw [hbefore] at hresolve
    cases hresolve
  | ok r =>
    rw [hbefore] at hresolve
    obtain ⟨err, herr⟩ | ⟨o, hlookup, -⟩ | ⟨o, -, -, hlookup, -⟩ :=
      resolve_cons_cases fs r.2 r.1 last
    · rw [show (Except.ok r >>= fun r => fs.resolve r.2 r.1 [last]) = fs.resolve r.2 r.1 [last]
        from rfl, herr] at hresolve
      cases hresolve
    all_goals
      refine ⟨o, ?_⟩
      simp [lstat, hsplit, hbefore, Bind.bind, Except.bind, hlookup]

section Root

variable [Inhabited E] {getdents : Bool}

/-- **The entry of the root**: it has the type of what the root names, and a link to a directory is
read. -/
theorem exists_rootEntry (getdents : Bool) (hfollow : opts.followLinks = false)
    (hroot : root.rejoined = root) (hstat : fs.stat root = .ok top) :
    ∃ e : DirEntry E, processDirEntryResult (fs.host getdents).systemCalls opts.followLinks
      (rootEntry (fs.host getdents).systemCalls opts root) = .ok e ∧ fs.Enters root [] top e := by
  obtain ⟨o, hlstat⟩ := exists_lstat_of_stat hstat
  have hcalls : (fs.host getdents).systemCalls = fs.systemCalls := by cases getdents <;> rfl
  have hentry : ∃ e : DirEntry E, rootEntry fs.systemCalls opts root = .ok e ∧
      e.path = root ∧ e.depth = 0 ∧ e.fileType = (fs.statx o).metadata.fileType ∧
      e.readChildrenError = none ∧
      e.readChildrenPath = if (fs.statx o).metadata.fileType.isDir then some root else none := by
    have hsymlink : fs.systemCalls.symlinkMetadata root = .ok (fs.statx o).metadata := by
      simp [systemCalls, hlstat, Except.map]
    simp only [rootEntry, DirEntry.fromPath, Bool.false_eq_true, ↓reduceIte, hsymlink]
    exact ⟨_, rfl, hroot, rfl, rfl, rfl, rfl⟩
  obtain ⟨e, hentry, hpath, hdepth, htype, herror, hread⟩ := hentry
  have hdescribes : fs.Describes root [] e :=
    ⟨by simp [hpath], by simp [hdepth], ⟨o, by rw [hpath, hlstat],
      by rw [htype]; exact fs.isDir_mode o, by rw [htype]; exact fs.isSymlink_mode o⟩, herror⟩
  have hisDir : (fs.statx o).metadata.fileType.isDir = (fs.node o).isDir := fs.isDir_mode o
  have hisLink : (fs.statx o).metadata.fileType.isSymlink = (fs.node o).isLink :=
    fs.isSymlink_mode o
  rw [hcalls, hentry, hfollow]
  cases hlink : (fs.node o).isLink with
  | false =>
    -- what the root names is where it leads
    obtain rfl : o = top := Except.ok.inj ((stat_of_lstat hlstat hlink).symm.trans hstat)
    refine ⟨e, ?_, ⟨hdescribes, fun _ => by rw [hpath, hstat], by rw [hread, hisDir, hpath]⟩⟩
    simp [processDirEntryResult, htype, hisLink, hlink, Bind.bind, Except.bind, pure, Except.pure]
  | true =>
    have hmetadata : fs.systemCalls.metadata e.path = .ok (fs.statx top).metadata := by
      simp [systemCalls, hpath, hstat, Except.map]
    have htop : (fs.statx top).metadata.fileType.isDir = (fs.node top).isDir := fs.isDir_mode top
    have hnone : e.readChildrenPath = none := by
      have : (fs.node o).isDir = false := by
        by_contra hdir
        simp [Node.isLink_of_isDir (by simpa using hdir)] at hlink
      rw [hread, hisDir, this]
      rfl
    cases hdir : (fs.node top).isDir with
    | false =>
      refine ⟨e, ?_, ⟨hdescribes, fun h => absurd (hdir.symm.trans h) (by decide), by
        rw [hnone, hdir]; rfl⟩⟩
      simp [processDirEntryResult, htype, hisLink, hlink, hdepth, hmetadata, htop, hdir, Bind.bind,
        Except.bind, pure, Except.pure]
    | true =>
      refine ⟨{ e with readChildrenPath := some e.path }, ?_,
        ⟨⟨hdescribes.path_eq, hdescribes.depth_eq, hdescribes.type_eq, herror⟩, fun _ => ?_, ?_⟩⟩
      · simp [processDirEntryResult, htype, hisLink, hlink, hdepth, hmetadata, htop, hdir,
          Bind.bind, Except.bind, pure, Except.pure]
      · exact (congrArg fs.stat hpath).trans hstat
      · rw [hdir]
        rfl

end Root

/-! ### The walk -/

/-- A directory that cannot be opened has no names. -/
theorem names_of_openDir_error (getdents : Bool) {path : Path} {err : IoError}
    (hd : fs.openDir path = .error err) (attempt : ℕ) :
    (fs.host getdents).names path attempt = [] := by
  cases getdents with
  | true =>
    change (linuxRecords fs.linux path attempt).records.map _ = []
    simp [linuxRecords, linux, hd]
  | false => simp [host, OperatingSystem.names, unix, hd, Except.map]

/-- The names that the operating system reports of a directory. -/
theorem names_of_openDir (getdents : Bool) {path : Path} (hd : fs.openDir path = .ok d)
    (attempt : ℕ) :
    (fs.host getdents).names path attempt = (fs.node d).entries.map Prod.fst := by
  cases getdents with
  | true =>
    have hd' : fs.openDir (⟨path, 0, 0, none, (), none⟩ : ReadRequest Unit).path = .ok d := hd
    change (linuxRecords fs.linux path attempt).records.map _ = _
    rw [show linuxRecords fs.linux path attempt = _ from linuxRecords_eq hd' attempt,
      List.map_map]
    rfl
  | false =>
    simp only [host, OperatingSystem.names, unix, hd, Except.map, Bool.false_eq_true, ↓reduceIte,
      List.filterMap_map]
    exact congrFun List.filterMap_eq_map' _

/-- The names that the operating system reports are valid and do not repeat. -/
theorem validName_names (fs : FileSystem ι) (getdents : Bool) (path : Path) (attempt : ℕ) :
    (∀ name ∈ (fs.host getdents).names path attempt, ValidName name) ∧
      ((fs.host getdents).names path attempt).Nodup := by
  cases hd : fs.openDir path with
  | error err =>
    rw [names_of_openDir_error getdents hd]
    exact ⟨fun _ hname => absurd hname List.not_mem_nil, List.nodup_nil⟩
  | ok d =>
    rw [names_of_openDir getdents hd]
    exact ⟨List.forall_mem_map.mpr (fs.validName d), fs.nodup_names d⟩

/-- So a walk yields no path twice. -/
theorem nodup_entryPaths [Inhabited E] {getdents : Bool} {state : B} {minDepth : ℕ}
    {items : List (Except Error (DirEntry E))} (hprocess : opts.processReadDir = none)
    (hroot : root.rejoined = root)
    (h : Completes (fs.host getdents) opts root state minDepth items) :
    (items.filterMap entryPath).Nodup := by
  have hpaths := h.pairwise_paths (s := (· ≠ ·)) hprocess
    (fun spec readDir => listed_read hprocess
      (fun path attempt => (fs.validName_names getdents path attempt).1)
      fun path attempt => (fs.validName_names getdents path attempt).2)
    (fun name name' hname heq => ne_of_related hname (Component.normal.inj heq)) hroot
  exact hpaths.imp fun {p q} hlex hpq => hlex.to_ne (congrArg Path.components hpq)

/-- **A walk covers exactly what is there.** On a file system that does not change and where every
directory can be opened, with Linux and elsewhere, for a root that leads somewhere and whose path is
put together again, and all options without a client's callback that do not follow links: when a
serial walk, or a parallel walk that keeps to its order, has come to its end, it has yielded entries
only, each path once. They are entries for what can be reached from the directory of the root
through names that are not left out, from the minimal to the maximal depth, and everything of this
kind has its entry. -/
theorem walk_covers [Inhabited E] (fs : FileSystem ι) (getdents : Bool) (opts : WalkDirOptions B E)
    (hprocess : opts.processReadDir = none) (hfollow : opts.followLinks = false) (root : Path)
    (hroot : root.rejoined = root) (top : ι) (hstat : fs.stat root = .ok top) (state : B)
    (minDepth : ℕ) (items : List (Except Error (DirEntry E)))
    (h : Completes (fs.host getdents) opts root state minDepth items) :
    ∃ entries : List (DirEntry E), items = entries.map .ok ∧ (entries.map DirEntry.path).Nodup ∧
      (∀ e ∈ entries, ∃ names o, fs.Shown opts top names o ∧
        minDepth ≤ min names.length usizeMax ∧ fs.Describes root names e) ∧
      ∀ names o, fs.Shown opts top names o → minDepth ≤ min names.length usizeMax →
        ∃ e ∈ entries, fs.Describes root names e := by
  obtain ⟨forest, hforest, hitems⟩ := h.unfolds (length_rootSpecs_le hprocess)
  obtain ⟨first, hfirst, henters⟩ := exists_rootEntry (E := E) getdents hfollow hroot hstat
  have hresults : (rootEntryResults (fs.host getdents) opts root state).2 =
      [(.ok first : Except Error (DirEntry E))] := by
    rw [← hfirst]
    exact rootResults_of_none (fs.host getdents) hprocess root state
  rw [hresults] at hforest
  have hshown : fs.Shown opts top [] top := ⟨rfl, by simp, by simp⟩
  have hvisits := shown_of_unfolds hprocess hfollow hforest fun result hresult =>
    ⟨[], top, first, List.mem_singleton.mp hresult, hshown, henters⟩
  have hitem : ∀ item ∈ items, ∃ names o e, item = .ok e ∧ fs.Shown opts top names o ∧
      minDepth ≤ min names.length usizeMax ∧ fs.Describes root names e := by
    intro item hmem
    rw [hitems] at hmem
    obtain ⟨visit, hvisit, hemit⟩ := List.mem_filterMap.mp hmem
    obtain ⟨names, o, e, rfl, hshown, henters⟩ := hvisits visit hvisit
    simp only [Visit.emit, Visit.item, Option.ite_none_right_eq_some, Option.some.injEq] at hemit
    exact ⟨names, o, e, hemit.2.symm, hshown, henters.depth_eq ▸ hemit.1, henters.toDescribes⟩
  obtain ⟨entries, hentries⟩ : ∃ entries : List (DirEntry E), entries.map .ok = items := by
    have : items ∈ Set.range (List.map (Except.ok : DirEntry E → _)) := by
      rw [Set.range_list_map]
      intro item hmem
      obtain ⟨-, -, e, rfl, -⟩ := hitem item hmem
      exact ⟨e, rfl⟩
    exact this
  refine ⟨entries, hentries.symm, ?_, fun e he => ?_, fun names o hshown hmin => ?_⟩
  · have heq : items.filterMap entryPath = entries.map DirEntry.path := by
      rw [← hentries, List.filterMap_map]
      exact congrFun List.filterMap_eq_map' entries
    rw [← heq]
    exact nodup_entryPaths hprocess hroot h
  · obtain ⟨names, o, e', he', hshown⟩ := hitem (.ok e) (hentries ▸ List.mem_map_of_mem he)
    obtain rfl := Except.ok.inj he'
    exact ⟨names, o, hshown⟩
  · obtain ⟨visit, hvisit, e, he, hdescribes⟩ := exists_visit_of_unfolds hprocess hfollow hforest
      List.mem_cons_self henters hshown.descend_eq hshown.not_hidden
      (by simpa using hshown.le_maxDepth)
    obtain ⟨-, -, e', rfl, -⟩ := hvisits visit hvisit
    obtain rfl := Except.ok.inj he
    rw [List.nil_append] at hdescribes
    have hmem : (.ok e' : Except Error (DirEntry E)) ∈ items := by
      rw [hitems]
      refine List.mem_filterMap.mpr ⟨_, hvisit, ?_⟩
      simp [Visit.emit, Visit.item, hdescribes.depth_eq, hmin]
    rw [← hentries] at hmem
    obtain ⟨e, hmem, he⟩ := List.mem_map.mp hmem
    exact ⟨e, hmem, Except.ok.inj he ▸ hdescribes⟩

/-- The statement above for the walk from `/`: it yields five entries, among them one for the link
`/r/a`, which it does not follow. -/
theorem walk_covers_linked :
    ∃ entries : List (DirEntry Unit), entries.length = 5 ∧ (entries.map DirEntry.path).Nodup ∧
      ∃ e ∈ entries, linkedFs.Describes ⟨[.rootDir]⟩ [[114], [97]] e := by
  have hserial : Completes (linkedFs.host true) (WalkDirOptions.new : WalkDirOptions Unit Unit)
      ⟨[.rootDir]⟩ () 0 ((serialWalk (rootEntryResults (linkedFs.host true) (WalkDirOptions.new :
        WalkDirOptions Unit Unit) ⟨[.rootDir]⟩ ()) 0).steps (coreReadDirCallback
          (linkedFs.host true) .new) 13).iter.items := .serial ⟨13, by decide +kernel, rfl⟩
  obtain ⟨entries, hentries, hnodup, -, hcovered⟩ := walk_covers linkedFs true .new rfl rfl
    ⟨[.rootDir]⟩ (by decide +kernel) 0 rfl () 0 _ hserial
  have hlength := congrArg List.length hentries
  rw [List.length_map] at hlength
  refine ⟨entries, hlength.symm.trans (by decide +kernel), hnodup, ?_⟩
  exact hcovered [[114], [97]] 3 ⟨rfl, by decide, by decide⟩ (by decide)

end FileSystem

end JwalkMeta
