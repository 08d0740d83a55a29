import JwalkMeta.WalkDir.Limits

/-!
# The order of a walk

The entries of a directory have different names, and they stand directly in it. So no path is
yielded twice, and a walk that sorts yields the paths in their own order, in which a directory comes
before its contents and the contents of a directory before what follows it: sorting every directory
sorts the whole walk. This needs a root whose path is put together again: the entry of the root
`a/..` reports the path `a/a/..`, which should come after the paths of the other entries.

## Main definitions

* `Component.Before`, `Path.Before`: the order of paths.
* `Listed`: the listing of a directory whose entries are related by their names.

## Main results

* `Unfolds.pairwise_paths`: the relation goes over to the paths of the walk.
* `sorted_paths`: a walk that sorts yields increasing paths.
-/

namespace JwalkMeta

open Interaction SerialWalk

variable {B E : Type}

/-! ### The order of paths -/

/-- The order of names, byte by byte. -/
def NameBefore (name name' : OsString) : Prop := List.compareLex compare name name' = .lt

/-- Names that are related by a listing are different. -/
theorem ne_of_related {opts : WalkDirOptions B E} {name name' : OsString}
    (h : (if opts.sort then NameBefore else (· ≠ ·)) name name') : name ≠ name' := by
  split_ifs at h
  · rintro rfl
    have : Std.ReflCmp (List.compareLex (compare : UInt8 → UInt8 → Ordering)) :=
      inferInstanceAs (Std.ReflOrd (List UInt8))
    have hself : List.compareLex compare name name = .eq := Std.ReflCmp.compare_self
    rw [NameBefore, hself] at h
    cases h
  · exact h

/-- The order of components: names by their bytes, after all other components. -/
def Component.Before : Component → Component → Prop
  | .normal name, .normal name' => NameBefore name name'
  | .rootDir, .rootDir | .curDir, .curDir | .parentDir, .parentDir => False
  | .rootDir, _ => True
  | .curDir, .rootDir => False
  | .curDir, _ => True
  | .parentDir, .normal _ => True
  | _, _ => False

/-- The order of `Path`: component by component. -/
def Path.Before (p q : Path) : Prop := List.Lex Component.Before p.components q.components

/-! ### Entries and their names -/

section Names

variable [Inhabited E] {os : OperatingSystem} {opts : WalkDirOptions B E} {attempt : ℕ}
  {req : ReadRequest B} {e e' : DirEntry E}

/-- The name of an entry that is made from the path of a valid name. -/
theorem DirEntry.names_fromPath {calls : SystemCalls} {depth : ℕ} {parentPath : Path}
    {name : OsString} (hname : ValidName name) {readMetadata readMetadataExt followLink : Bool}
    {ancestors : Option (List AncestorIdentity)}
    (h : fromPath calls depth (parentPath.join name) readMetadata readMetadataExt followLink
      ancestors = .ok e) : e.fileName = name ∧ e.parentPath = parentPath := by
  have hcomponents := hname.components_join parentPath
  have hfileName : (parentPath.join name).fileName = some name := by
    simp [Path.fileName, hcomponents]
  have hparent : (parentPath.join name).parent = some parentPath := by
    simp [Path.parent, hcomponents]
  rw [fromPath, hfileName, hparent] at h
  split at h
  · cases h
  · obtain rfl := Except.ok.inj h
    exact ⟨rfl, rfl⟩

/-- Following a link keeps the name and the directory. -/
theorem names_processDirEntryResult {calls : SystemCalls} {followLinks : Bool}
    (hname : ValidName e.fileName)
    (h : processDirEntryResult calls followLinks (.ok e) = .ok e') :
    e'.fileName = e.fileName ∧ e'.parentPath = e.parentPath := by
  by_cases hlink : (followLinks && e.fileType.isSymlink) = true
  · rw [processDirEntryResult_of_link calls hlink] at h
    exact DirEntry.names_fromPath hname (DirEntry.fromPath_of_followSymlink h)
  · simp only [processDirEntryResult, hlink, Bool.false_eq_true, ↓reduceIte, Bind.bind,
      Except.bind, pure, Except.pure] at h
    split_ifs at h
    · split at h
      · cases h
      · split_ifs at h <;>
        · obtain rfl := Except.ok.inj h
          exact ⟨rfl, rfl⟩
    · obtain rfl := Except.ok.inj h
      exact ⟨rfl, rfl⟩

/-- The name of the entry that a result is, if it is one. -/
def entryName (result : Except Error (DirEntry E)) : Option OsString :=
  result.toOption.map DirEntry.fileName

omit [Inhabited E] in
theorem entryName_eq_some {result : Except Error (DirEntry E)} {name : OsString} :
    entryName result = some name ↔ ∃ e, result = .ok e ∧ e.fileName = name := by
  cases result <;> simp [entryName, Except.toOption]

/-- The name of a processed entry. -/
theorem entryName_processDirEntryResult {calls : SystemCalls} {followLinks : Bool}
    (hname : ValidName e.fileName) {name : OsString}
    (h : entryName (processDirEntryResult calls followLinks (.ok e)) = some name) :
    name = e.fileName := by
  obtain ⟨e', he', rfl⟩ := entryName_eq_some.mp h
  exact (names_processDirEntryResult hname he').1

theorem fileName_makeDirEntryLinux (calls : LinuxCalls) (info : LinuxDirEntryOwned) (depth : ℕ)
    (parentPath : Path) (readMetadata readMetadataExt : Bool)
    (ancestors : Option (List AncestorIdentity)) :
    (makeDirEntryLinux (E := E) calls info depth parentPath readMetadata readMetadataExt
      ancestors).fileName = info.name := by
  unfold makeDirEntryLinux
  dsimp only
  split <;> rfl

theorem entryName_linuxResult {calls : LinuxCalls} {info : LinuxDirEntryOwned}
    (hname : ValidName info.name) {name : OsString}
    (h : (linuxResult (E := E) calls opts req info).bind entryName = some name) :
    name = info.name := by
  unfold linuxResult at h
  split_ifs at h
  · cases h
  · have hfileName := fileName_makeDirEntryLinux (E := E) calls info req.readDirContentsDepth
      req.path opts.readMetadata opts.readMetadataExt req.followLinkAncestors
    rw [← hfileName] at hname ⊢
    exact entryName_processDirEntryResult hname h

theorem entryName_windowsResult {calls : WindowsCalls} {info : DirEntryInfo}
    (hname : ValidName info.fileName) {name : OsString}
    (h : (windowsResult (E := E) calls opts req info).bind entryName = some name) :
    name = info.fileName := by
  unfold windowsResult at h
  split_ifs at h
  · cases h
  · exact entryName_processDirEntryResult hname h

theorem entryName_unixResult {calls : UnixCalls} {entry : Except IoError FsDirEntry}
    (hname : ∀ found, entry = .ok found → ValidName found.fileName) {name : OsString}
    (h : (unixResult (E := E) calls opts req entry).bind entryName = some name) :
    entry.toOption.map FsDirEntry.fileName = some name := by
  cases entry with
  | error ioErr => cases h
  | ok found =>
    simp only [unixResult] at h
    split at h
    · cases h
    · simp only [DirEntry.fromEntry] at h
      cases hfileType : found.fileType with
      | error ioErr =>
        rw [hfileType] at h
        cases h
      | ok fileType =>
        simp only [hfileType] at h
        split_ifs at h
        · cases h
        · exact congrArg some (entryName_processDirEntryResult (hname found rfl) h).symm

/-- **The names of a listing are listed in order**, without those that are left out. -/
theorem sublist_names (hnames : ∀ name ∈ os.names req.path attempt, ValidName name)
    {results : List (Except Error (DirEntry E))}
    (h : rawListing os opts attempt req = .ok results) :
    (results.filterMap entryName).Sublist (os.names req.path attempt) := by
  cases os with
  | linux calls =>
    simp only [rawListing] at h
    split at h
    · cases h
    · obtain rfl := Except.ok.inj h
      obtain ⟨statx, hbatch, -⟩ :=
        batchStatx_eq calls opts req.path (linuxRecords calls req.path attempt).records
      rw [hbatch, List.filterMap_map, List.filterMap_filterMap, OperatingSystem.names,
        ← List.filterMap_eq_map]
      refine Selection.sublist_filterMap fun info hinfo name hname => ?_
      have hvalid : ValidName info.name := hnames _ (List.mem_map_of_mem hinfo)
      have hsame := entryName_linuxResult (by exact hvalid) hname
      exact congrArg some hsame.symm
  | windows calls =>
    simp only [rawListing] at h
    split at h
    · cases h
    · obtain rfl := Except.ok.inj h
      obtain ⟨fill, hfill, hsame⟩ :=
        linkedRecords_eq calls opts req.path (windowsRecords calls req.path attempt).records
      rw [hfill, List.filterMap_map, List.filterMap_filterMap, OperatingSystem.names,
        ← List.filterMap_eq_map]
      refine Selection.sublist_filterMap fun info hinfo name hname => ?_
      have hvalid : ValidName (fill info).fileName := by
        rw [(hsame info).1]
        exact hnames _ (List.mem_map_of_mem hinfo)
      exact congrArg some
        ((entryName_windowsResult hvalid hname).trans (hsame info).1).symm
  | unix calls =>
    simp only [rawListing] at h
    cases hread : calls.readDir req.path attempt with
    | error ioErr => simp [hread] at h
    | ok entries =>
      rw [hread] at h
      obtain rfl := Except.ok.inj h
      simp only [OperatingSystem.names, hread] at hnames ⊢
      rw [List.filterMap_filterMap]
      refine Selection.sublist_filterMap fun entry hentry name hname => ?_
      refine entryName_unixResult (fun found hfound => hnames _ ?_) hname
      exact List.mem_filterMap.mpr ⟨entry, hentry, by rw [hfound]; rfl⟩

end Names

/-! ### Listings -/

/-- Two results are related by the names of their entries, if both are entries. -/
def NamesRelated (r : OsString → OsString → Prop) (a b : Except Error (DirEntry E)) : Prop :=
  ∀ e e', a = .ok e → b = .ok e' → r e.fileName e'.fileName

/-- **The listing of a directory.** Its entries stand directly in the directory, those that are read
are read where they stand, and any two of them are related by their names. -/
structure Listed (r : OsString → OsString → Prop) (path : Path)
    (results : List (Except Error (DirEntry E))) : Prop where
  path_eq : ∀ e, .ok e ∈ results → ValidName e.fileName ∧ e.path = path.join e.fileName
  readChildrenPath : ∀ e, .ok e ∈ results → ∀ readPath ∈ e.readChildrenPath, readPath = e.path
  related : results.Pairwise (NamesRelated r)

section Listings

variable {r : OsString → OsString → Prop} {path : Path}
  {results results' : List (Except Error (DirEntry E))}

theorem pairwise_namesRelated :
    results.Pairwise (NamesRelated r) ↔ (results.filterMap entryName).Pairwise r := by
  rw [List.pairwise_filterMap]
  refine List.Pairwise.iff fun a b => ⟨fun h name hname name' hname' => ?_, fun h e e' he he' => ?_⟩
  · obtain ⟨e, he, rfl⟩ := entryName_eq_some.mp hname
    obtain ⟨e', he', rfl⟩ := entryName_eq_some.mp hname'
    exact h e e' he he'
  · exact h _ (entryName_eq_some.mpr ⟨e, he, rfl⟩) _ (entryName_eq_some.mpr ⟨e', he', rfl⟩)

/-- **The order by which results are sorted** is total: that of names for entries. -/
theorem exists_sort_order :
    ∃ le : Except Error (DirEntry E) → Except Error (DirEntry E) → Bool,
      (∀ results, sortDirEntriesByName results = results.mergeSort le) ∧
      (∀ a b c, le a b → le b c → le a c) ∧ (∀ a b, le a b || le b a) ∧
      ∀ e e', le (.ok e) (.ok e') = (List.compareLex compare e.fileName e'.fileName).isLE := by
  have : Std.TransCmp (List.compareLex (compare : UInt8 → UInt8 → Ordering)) :=
    inferInstanceAs (Std.TransOrd (List UInt8))
  refine ⟨_, fun results => rfl, ?_, ?_, fun e e' => rfl⟩
  · rintro (a | a) (b | b) (c | c) <;> simp
    exact Std.TransCmp.isLE_trans
  · rintro (a | a) (b | b) <;> simp
    have hswap : List.compareLex compare b.fileName a.fileName =
        (List.compareLex compare a.fileName b.fileName).swap := Std.OrientedCmp.eq_swap
    rw [hswap]
    cases List.compareLex compare a.fileName b.fileName <;> simp

/-- **Sorting puts different names in their order.** -/
theorem Listed.sorted (h : Listed (· ≠ ·) path results) :
    Listed NameBefore path (sortDirEntriesByName results) := by
  have hperm : (sortDirEntriesByName results).Perm results := List.mergeSort_perm _ _
  refine ⟨fun e he => h.path_eq e (hperm.mem_iff.mp he),
    fun e he => h.readChildrenPath e (hperm.mem_iff.mp he), ?_⟩
  have hdifferent : (sortDirEntriesByName results).Pairwise (NamesRelated (· ≠ ·)) := by
    refine (hperm.pairwise_iff fun {a b} hab e e' he he' => ?_).mpr h.related
    exact (hab e' e he' he).symm
  have : Std.LawfulEqCmp (List.compareLex (compare : UInt8 → UInt8 → Ordering)) :=
    inferInstanceAs (Std.LawfulEqOrd (List UInt8))
  obtain ⟨le, hsort, htrans, htotal, hle⟩ := exists_sort_order (E := E)
  have hsorted : (sortDirEntriesByName results).Pairwise fun a b => le a b = true := by
    rw [hsort]
    exact List.pairwise_mergeSort htrans htotal results
  refine (hsorted.and hdifferent).imp fun {a b} hab e e' he he' => ?_
  obtain ⟨hbefore, hne⟩ := hab
  subst he he'
  rw [hle] at hbefore
  rcases hcompare : List.compareLex compare e.fileName e'.fileName with _ | _ | _
  · exact hcompare
  · exact absurd (Std.LawfulEqCmp.eq_of_compare hcompare) (hne e e' rfl rfl)
  · simp [hcompare] at hbefore

end Listings

section Reads

variable [Inhabited E] {os : OperatingSystem} {opts : WalkDirOptions B E}

/-- The entries of a listing stand in the directory. -/
theorem standing_rawListing {attempt : ℕ} {req : ReadRequest B}
    (hnames : ∀ name ∈ os.names req.path attempt, ValidName name)
    {results : List (Except Error (DirEntry E))}
    (h : rawListing os opts attempt req = .ok results) :
    Listed (fun _ _ => True) req.path results := by
  -- every entry comes from an entry of the attempt
  have hentry (e : DirEntry E) (he : .ok e ∈ results) :
      ∃ entered, Entered os attempt req entered ∧
        processDirEntryResult os.systemCalls opts.followLinks (.ok entered) = .ok e ∧
        e.fileName = entered.fileName ∧ e.path = entered.path := by
    rcases entered_of_mem_rawListing h he with ⟨entered, hentered, hresult⟩ | ⟨_, _, herr, -⟩
    · have hvalid := hnames _ hentered.fileName_mem
      obtain ⟨hfileName, hparent⟩ := names_processDirEntryResult hvalid hresult.symm
      exact ⟨entered, hentered, hresult.symm, hfileName,
        by rw [DirEntry.path, DirEntry.path, hfileName, hparent]⟩
    · cases herr
  refine ⟨fun e he => ?_, fun e he readPath hread => ?_,
    List.pairwise_of_forall fun _ _ _ _ _ _ => trivial⟩
  · obtain ⟨entered, hentered, -, hfileName, hpath⟩ := hentry e he
    rw [hfileName, hpath]
    exact ⟨hnames _ hentered.fileName_mem, hentered.path_eq⟩
  · obtain ⟨entered, hentered, hprocessed, -, hpath⟩ := hentry e he
    rw [hpath]
    exact ((of_processDirEntryResult_ok hprocessed).2.2.2 readPath hread).elim id
      (hentered.readChildrenPath readPath)

/-- The results of a listing. -/
theorem listed_rawListing {attempt : ℕ} {req : ReadRequest B}
    (hnames : ∀ name ∈ os.names req.path attempt, ValidName name)
    (hnodup : (os.names req.path attempt).Nodup) {results : List (Except Error (DirEntry E))}
    (h : rawListing os opts attempt req = .ok results) : Listed (· ≠ ·) req.path results := by
  obtain ⟨hpath, hreadChildren, -⟩ := standing_rawListing hnames h
  exact ⟨hpath, hreadChildren, pairwise_namesRelated.mpr (hnodup.sublist (sublist_names hnames h))⟩

/-- **The results of a read** without a client's callback. -/
theorem listed_read (hprocess : opts.processReadDir = none)
    (hnames : ∀ path attempt, ∀ name ∈ os.names path attempt, ValidName name)
    (hnodup : ∀ path attempt, (os.names path attempt).Nodup) {spec : ReadDirSpec B}
    {readDir : ReadDir B E} (h : (coreReadDirCallback os opts).read spec = .ok readDir) :
    Listed (if opts.sort then NameBefore else (· ≠ ·)) spec.path readDir.resultsList := by
  rcases listing_of_read h with hempty | ⟨attempt, results, hlisting, rfl⟩
  · rw [hempty]
    exact ⟨fun e he => absurd he List.not_mem_nil, fun e he => absurd he List.not_mem_nil,
      List.Pairwise.nil⟩
  · have hlisted : Listed (· ≠ ·) spec.path results :=
      listed_rawListing (hnames _ attempt) (hnodup _ attempt) hlisting
    simp only [finishReadDir, hprocess]
    split_ifs
    · exact hlisted.sorted
    · exact hlisted

end Reads

/-! ### Paths of a walk -/

section Paths

variable {r : OsString → OsString → Prop} {dir : Path} {state : B}
  {read : ReadDirSpec B → ReadDirResult B E} {results : List (Except Error (DirEntry E))}
  {forest : Forest (Visit E)}

/-- The component that a result stands for: the name of the entry, if it is one. -/
def Visit.component (visit : Visit E) : Component :=
  .normal ((entryName visit.result).getD [])

/-- An entry stands at the path that the components spell. -/
def Visit.StandsAt (place : List Component) (visit : Visit E) : Prop :=
  ∀ e, visit.result = .ok e → e.path.components = place

/-- A result that is no entry. -/
def Visit.IsError (visit : Visit E) : Prop := ∀ e, visit.result ≠ .ok e

theorem Listed.tail {result : Except Error (DirEntry E)} (h : Listed r dir (result :: results)) :
    Listed r dir results :=
  ⟨fun e he => h.path_eq e (List.mem_cons_of_mem _ he),
    fun e he => h.readChildrenPath e (List.mem_cons_of_mem _ he),
    (List.pairwise_cons.mp h.related).2⟩

/-- The first entry of a listing stands at its place. -/
theorem Listed.standsAt {dirEntry : DirEntry E} (h : Listed r dir (.ok dirEntry :: results))
    (readError : Option Error) :
    (⟨.ok dirEntry, readError⟩ : Visit E).StandsAt
      (dir.components ++ [Visit.component ⟨.ok dirEntry, readError⟩]) := by
  intro e he
  obtain rfl := Except.ok.inj he
  obtain ⟨hvalid, hpath⟩ := h.path_eq dirEntry List.mem_cons_self
  rw [hpath, hvalid.components_join]
  rfl

/-- The first result of a listing is related to the roots of what follows. -/
theorem Unfolds.related_roots {result : Except Error (DirEntry E)}
    (h : Unfolds read state results forest) (hlisted : Listed r dir (result :: results)) :
    ∀ visit ∈ forest.roots, NamesRelated r result visit.result := by
  intro visit hvisit
  refine (List.pairwise_cons.mp hlisted.related).1 visit.result ?_
  rw [← h.map_result_roots]
  exact List.mem_map_of_mem hvisit

/-- **The forest of a listing**, where reads list directories: it is ordered by names, every entry
stands at its place, and below an error there is nothing. -/
theorem Unfolds.located (h : Unfolds read state results forest)
    (hread : ∀ spec readDir, read spec = .ok readDir → Listed r spec.path readDir.resultsList)
    (hlisted : Listed r dir results) :
    forest.Ordered (fun a b => NamesRelated r a.result b.result) ∧
      forest.Placed Visit.component Visit.StandsAt dir.components ∧ forest.Ended Visit.IsError := by
  induction h generalizing dir with
  | nil => exact ⟨trivial, trivial, trivial⟩
  | @error state err rest forest hrest ih =>
    obtain ⟨hordered, hplaced, hended⟩ := ih hlisted.tail
    exact ⟨⟨hrest.related_roots hlisted, trivial, hordered⟩,
      ⟨fun e he => (by cases he), trivial, hplaced⟩, ⟨fun _ => rfl, trivial, hended⟩⟩
  | @entry state dirEntry rest forest hspec hrest ih =>
    obtain ⟨hordered, hplaced, hended⟩ := ih hlisted.tail
    exact ⟨⟨hrest.related_roots hlisted, trivial, hordered⟩,
      ⟨hlisted.standsAt _, trivial, hplaced⟩, ⟨fun _ => rfl, trivial, hended⟩⟩
  | @failed state dirEntry spec err rest forest hspec hreadErr hrest ih =>
    obtain ⟨hordered, hplaced, hended⟩ := ih hlisted.tail
    exact ⟨⟨hrest.related_roots hlisted, trivial, hordered⟩,
      ⟨hlisted.standsAt _, trivial, hplaced⟩, ⟨fun _ => rfl, trivial, hended⟩⟩
  | @listed state dirEntry spec readDir rest below forest hspec hreadOk hdir hrest ihdir ihrest =>
    obtain ⟨hordered, hplaced, hended⟩ := ihrest hlisted.tail
    obtain ⟨hordered', hplaced', hended'⟩ := ihdir (hread _ _ hreadOk)
    obtain ⟨readPath, hreadPath, rfl⟩ := Option.map_eq_some_iff.mp hspec
    -- the directory is read where its entry stands
    have hplace : readPath.components = dir.components ++
        [Visit.component (⟨.ok dirEntry, none⟩ : Visit E)] := by
      rw [hlisted.readChildrenPath _ List.mem_cons_self _ hreadPath]
      exact hlisted.standsAt none dirEntry rfl
    exact ⟨⟨hrest.related_roots hlisted, hordered', hordered⟩,
      ⟨hlisted.standsAt _, hplace ▸ hplaced', hplaced⟩,
      ⟨fun herror => absurd rfl (herror dirEntry), hended', hended⟩⟩

/-- The path of the entry that a result is, if it is one. -/
def entryPath (result : Except Error (DirEntry E)) : Option Path :=
  result.toOption.map DirEntry.path

theorem entryPath_eq_some {result : Except Error (DirEntry E)} {p : Path} :
    entryPath result = some p ↔ ∃ e, result = .ok e ∧ e.path = p := by
  cases result <;> simp [entryPath, Except.toOption]

/-- The path of an entry of the walk. -/
def Visit.path (visit : Visit E) : Option Path := entryPath visit.result

/-- The item for an entry has its path. -/
theorem entryPath_of_emit {minDepth : ℕ} {visit : Visit E} {item : Except Error (DirEntry E)}
    (h : visit.emit minDepth = some item) : entryPath item = visit.path := by
  obtain ⟨result, readError⟩ := visit
  cases result with
  | error err => cases readError <;> (obtain rfl := Option.some.inj h; rfl)
  | ok e =>
    cases readError <;>
    · simp only [Visit.emit, Visit.item] at h
      split_ifs at h
      obtain rfl := Option.some.inj h
      rfl

section Located

variable {s : Component → Component → Prop} {place : List Component}
  (hplaced : forest.Placed Visit.component Visit.StandsAt place)

include hplaced

/-- Every path extends the path of the directory. -/
theorem exists_append_of_mem_paths {p : Path}
    (hp : p ∈ forest.labels.filterMap Visit.path) :
    ∃ c rest, p.components = place ++ c :: rest := by
  obtain ⟨visit, hvisit, hpath⟩ := List.mem_filterMap.mp hp
  rw [Forest.labels_eq] at hvisit
  obtain ⟨line, hline, hlast⟩ := List.mem_filterMap.mp hvisit
  obtain ⟨e, he, rfl⟩ := entryPath_eq_some.mp hpath
  obtain ⟨first, rest, rfl⟩ := List.exists_cons_of_ne_nil (Forest.ne_nil_of_mem_lines hline)
  exact ⟨_, _, hplaced.of_mem_lines hline hlast e he⟩

/-- **A relation of names goes over to the paths of the walk.** -/
theorem pairwise_paths (hordered : forest.Ordered fun a b => NamesRelated r a.result b.result)
    (hended : forest.Ended Visit.IsError)
    (hs : ∀ name name', r name name' → s (.normal name) (.normal name')) :
    (forest.labels.filterMap Visit.path).Pairwise fun p q =>
      List.Lex s p.components q.components := by
  rw [Forest.labels_eq, List.filterMap_filterMap, List.pairwise_filterMap]
  refine hordered.pairwise_lines.imp_of_mem fun {l l'} hl hl' hlex p hp q hq => ?_
  -- a line that ends in an entry is a line of entries
  have hentries {line : List (Visit E)} (hline : line ∈ forest.lines) {p : Path}
      (hp : line.getLast?.bind Visit.path = some p) :
      p.components = place ++ line.map Visit.component ∧
        ∀ visit ∈ line, ∃ e, visit.result = .ok e := by
    obtain ⟨last, hlast, hpath⟩ := Option.bind_eq_some_iff.mp hp
    obtain ⟨e, he, rfl⟩ := entryPath_eq_some.mp hpath
    refine ⟨hplaced.of_mem_lines hline hlast e he, fun visit hvisit => ?_⟩
    rw [← List.dropLast_append_getLast? last hlast, List.mem_append, List.mem_singleton] at hvisit
    rcases hvisit with hvisit | rfl
    · by_contra hno
      exact hended.of_mem_lines hline visit hvisit fun e he => hno ⟨e, he⟩
    · exact ⟨e, he⟩
  obtain ⟨hpath, hall⟩ := hentries hl hp
  obtain ⟨hpath', hall'⟩ := hentries hl' hq
  rw [hpath, hpath']
  refine List.Lex.append_left _ (Forest.lex_map hlex fun a ha b hb hab => ?_) place
  obtain ⟨e, he⟩ := hall a ha
  obtain ⟨e', he'⟩ := hall' b hb
  rw [Visit.component, Visit.component, entryName_eq_some.mpr ⟨e, he, rfl⟩,
    entryName_eq_some.mpr ⟨e', he', rfl⟩]
  exact hs _ _ (hab e e' he he')

end Located

end Paths

/-- The forest of a single result. -/
theorem Unfolds.exists_root {read : ReadDirSpec B → ReadDirResult B E} {state : B}
    {result : Except Error (DirEntry E)} {forest : Forest (Visit E)}
    (h : Unfolds read state [result] forest) :
    ∃ visit below, forest = .node visit below .nil ∧ visit.result = result ∧
      (below = .nil ∨ ∃ e spec readDir, result = .ok e ∧ e.readChildrenSpec state = some spec ∧
        read spec = .ok readDir ∧
        Unfolds read readDir.readDirState readDir.resultsList below) := by
  cases h with
  | error hrest =>
    cases hrest
    exact ⟨_, _, rfl, rfl, Or.inl rfl⟩
  | entry hspec hrest =>
    cases hrest
    exact ⟨_, _, rfl, rfl, Or.inl rfl⟩
  | failed hspec hread hrest =>
    cases hrest
    exact ⟨_, _, rfl, rfl, Or.inl rfl⟩
  | listed hspec hread hdir hrest =>
    cases hrest
    exact ⟨_, _, rfl, rfl, Or.inr ⟨_, _, _, rfl, hspec, hread, hdir⟩⟩

section Walks

variable [Inhabited E] {os : OperatingSystem} {opts : WalkDirOptions B E} {root : Path} {state : B}
  {minDepth : ℕ} {items : List (Except Error (DirEntry E))}

/-- The root entry stands at the path of the root, and is read there. -/
theorem path_of_root (hroot : root.rejoined = root) {e : DirEntry E}
    (h : processDirEntryResult os.systemCalls opts.followLinks
      (rootEntry os.systemCalls opts root) = .ok e) :
    e.path = root ∧ ∀ readPath ∈ e.readChildrenPath, readPath = root := by
  cases hentry : rootEntry (E := E) os.systemCalls opts root with
  | error err =>
    rw [hentry] at h
    cases h
  | ok entry =>
    rw [hentry] at h
    obtain ⟨hpath, hread⟩ := DirEntry.path_fromPath hentry
    rw [hroot] at hpath
    refine ⟨?_, fun readPath hmem => ?_⟩
    · by_cases hlink : (opts.followLinks && entry.fileType.isSymlink) = true
      · rw [processDirEntryResult_of_link _ hlink] at h
        rw [(DirEntry.path_fromPath (DirEntry.fromPath_of_followSymlink h)).1, hpath, hroot]
      · rw [← hpath]
        simp only [processDirEntryResult, hlink, Bool.false_eq_true, ↓reduceIte, Bind.bind,
          Except.bind, pure, Except.pure] at h
        split_ifs at h
        · split at h
          · cases h
          · split_ifs at h <;>
            · obtain rfl := Except.ok.inj h
              rfl
        · obtain rfl := Except.ok.inj h
          rfl
    · rcases (of_processDirEntryResult_ok h).2.2.2 readPath hmem with hself | hself
      · rw [hself, hpath]
      · exact hread readPath hself

/-- **The paths of a walk** without a client's callback, pair by pair. -/
theorem Completes.pairwise_paths {r : OsString → OsString → Prop}
    {s : Component → Component → Prop} (hprocess : opts.processReadDir = none)
    (hread : ∀ spec readDir, (coreReadDirCallback (E := E) os opts).read spec = .ok readDir →
      Listed r spec.path readDir.resultsList)
    (hs : ∀ name name', r name name' → s (.normal name) (.normal name'))
    (hroot : root.rejoined = root) (h : Completes os opts root state minDepth items) :
    (items.filterMap entryPath).Pairwise fun p q => List.Lex s p.components q.components := by
  obtain ⟨forest, hforest, rfl⟩ := h.unfolds (length_rootSpecs_le hprocess)
  -- leaving out entries above the minimal depth does not matter
  have hsub : ((forest.labels.filterMap (Visit.emit minDepth)).filterMap entryPath).Sublist
      (forest.labels.filterMap Visit.path) := by
    rw [List.filterMap_filterMap]
    refine Selection.sublist_filterMap fun visit _ p hp => ?_
    obtain ⟨item, hitem, hpath⟩ := Option.bind_eq_some_iff.mp hp
    rw [← entryPath_of_emit hitem, hpath]
  refine List.Pairwise.sublist hsub ?_
  rw [rootResults_of_none os hprocess] at hforest
  obtain ⟨visit, below, rfl, hvisit, hbelow⟩ := hforest.exists_root
  rcases hbelow with rfl | ⟨e, spec, readDir, hresult, hspec, hreadOk, hdir⟩
  · rw [Forest.labels_node, Forest.labels_nil, List.append_nil, List.filterMap_cons]
    cases visit.path <;> simp
  · obtain ⟨hpath, hself⟩ := path_of_root hroot hresult
    obtain ⟨readPath, hreadPath, rfl⟩ := Option.map_eq_some_iff.mp hspec
    obtain rfl := hself readPath hreadPath
    obtain ⟨hordered, hplaced, hended⟩ := hdir.located hread (hread _ _ hreadOk)
    have hfirst : visit.path = some readPath :=
      entryPath_eq_some.mpr ⟨e, hvisit.trans hresult, hpath⟩
    rw [Forest.labels_node, List.filterMap_cons_some hfirst, Forest.labels_nil, List.append_nil,
      List.pairwise_cons]
    refine ⟨fun p hp => ?_, JwalkMeta.pairwise_paths hplaced hordered hended hs⟩
    obtain ⟨c, rest, hcomponents⟩ := exists_append_of_mem_paths hplaced hp
    rw [hcomponents]
    simpa using List.Lex.append_left s (.nil (a := c) (l := rest)) readPath.components

/-- **A walk that sorts yields increasing paths.** If the names of a directory are valid and do not
repeat, whatever else the operating system answers and whether links are followed: in a walk without
a client's callback that has come to its end, a serial or a parallel one, from a root whose path is
put together again, every entry comes after those whose paths are smaller. -/
theorem sorted_paths (os : OperatingSystem) (opts : WalkDirOptions B E) (hsort : opts.sort = true)
    (hprocess : opts.processReadDir = none)
    (hnames : ∀ path attempt, ∀ name ∈ os.names path attempt, ValidName name)
    (hnodup : ∀ path attempt, (os.names path attempt).Nodup) (root : Path)
    (hroot : root.rejoined = root) (state : B) (minDepth : ℕ)
    (items : List (Except Error (DirEntry E)))
    (h : Completes os opts root state minDepth items) :
    (items.filterMap entryPath).Pairwise Path.Before := by
  refine h.pairwise_paths (r := NameBefore) hprocess (fun spec readDir hread => ?_)
    (fun _ _ hbefore => hbefore) hroot
  simpa [hsort] using listed_read hprocess hnames hnodup hread

/-- **No path is yielded twice**, whether the walk sorts or not, if the path of its root is put
together again and the names of a directory are valid and do not repeat. -/
theorem nodup_paths (os : OperatingSystem) (opts : WalkDirOptions B E)
    (hprocess : opts.processReadDir = none)
    (hnames : ∀ path attempt, ∀ name ∈ os.names path attempt, ValidName name)
    (hnodup : ∀ path attempt, (os.names path attempt).Nodup) (root : Path)
    (hroot : root.rejoined = root) (state : B) (minDepth : ℕ)
    (items : List (Except Error (DirEntry E)))
    (h : Completes os opts root state minDepth items) : (items.filterMap entryPath).Nodup := by
  have hpaths := h.pairwise_paths (s := (· ≠ ·)) hprocess
    (fun spec readDir => listed_read hprocess hnames hnodup)
    (fun name name' hname heq => ne_of_related hname (Component.normal.inj heq)) hroot
  exact hpaths.imp fun {p q} hlex hpq => hlex.to_ne (congrArg Path.components hpq)

end Walks

/-- Options for a walk that sorts, with the maximal depth 2. -/
def shallowSortOptions : WalkDirOptions Unit Unit := { sortOptions with maxDepth := 2 }

/-- The first statement above for a walk of an endless line of directories that is cut at depth 2:
it yields `r`, `r/a` and `r/a/a`. -/
theorem sorted_paths_endless :
    ∃ items : List (Except Error (DirEntry Unit)),
      items.filterMap entryPath = [⟨[.normal [114]]⟩, ⟨[.normal [114], .normal [97]]⟩,
        ⟨[.normal [114], .normal [97], .normal [97]]⟩] ∧
      (items.filterMap entryPath).Pairwise Path.Before := by
  have hserial : Completes (.linux endlessLinux) shallowSortOptions ⟨[.normal [114]]⟩ () 0
      ((serialWalk (rootEntryResults (.linux endlessLinux) shallowSortOptions ⟨[.normal [114]]⟩ ())
        0).steps (coreReadDirCallback (.linux endlessLinux) shallowSortOptions) 14).iter.items :=
    .serial ⟨14, by decide +kernel, rfl⟩
  refine ⟨_, by decide +kernel, sorted_paths (.linux endlessLinux) shallowSortOptions rfl rfl
    (fun path attempt => ?_) (fun path attempt => ?_) ⟨[.normal [114]]⟩ (by decide +kernel) () 0 _
    hserial⟩
  · change ∀ name ∈ [[97]], ValidName name
    decide
  · change [[97]].Nodup
    decide

theorem treeLinux_names (path : Path) (attempt : ℕ) :
    (OperatingSystem.linux treeLinux).names path attempt = [[98], [97], [99]] ∨
      (OperatingSystem.linux treeLinux).names path attempt = [[100]] := by
  simp only [OperatingSystem.names, linuxRecords, treeLinux, LinuxCalls.listing]
  split_ifs
  · exact Or.inl rfl
  · exact Or.inr rfl

/-- The second statement above for a walk of `r` with a subdirectory: it yields five paths. -/
theorem nodup_paths_tree :
    ∃ items : List (Except Error (DirEntry Unit)), (items.filterMap entryPath).length = 5 ∧
      (items.filterMap entryPath).Nodup := by
  have hnames (path : Path) (attempt : ℕ) :
      (∀ name ∈ (OperatingSystem.linux treeLinux).names path attempt, ValidName name) ∧
        ((OperatingSystem.linux treeLinux).names path attempt).Nodup := by
    rcases treeLinux_names path attempt with h | h <;>
    · rw [h]
      decide
  have hserial : Completes (.linux treeLinux) (WalkDirOptions.new : WalkDirOptions Unit Unit)
      ⟨[.normal [114]]⟩ () 0
      ((serialWalk (rootEntryResults (.linux treeLinux) (WalkDirOptions.new : WalkDirOptions Unit
        Unit) ⟨[.normal [114]]⟩ ()) 0).steps (coreReadDirCallback (.linux treeLinux) .new)
        12).iter.items := .serial ⟨12, by decide +kernel, rfl⟩
  refine ⟨_, by decide +kernel, nodup_paths (.linux treeLinux) .new rfl
    (fun path attempt => (hnames path attempt).1) (fun path attempt => (hnames path attempt).2)
    ⟨[.normal [114]]⟩ (by decide +kernel) () 0 _ hserial⟩

end JwalkMeta
