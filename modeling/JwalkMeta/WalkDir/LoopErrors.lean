import JwalkMeta.Run.Delivery
import JwalkMeta.WalkDir.Loops
import JwalkMeta.WalkDir.Origins

/-!
# Loop errors are genuine

A link is refused if its target is found among the ancestors of its entry. What is recorded there is
what `symlink_metadata` reports for the paths of the reads that lead down to the entry, so some
identities are those of links. These are never found, as the target of a refused link is a
directory: whenever a link is refused, the ancestor that is reported is a read of the chain, and
the link leads back to its very directory. For the root this rests on the client's callback: what is
recorded is the path of the walk, whatever path the callback has read in its place.

Source: `src/core/dir_entry.rs`, `src/core/metadata.rs`, `src/lib.rs`.

## Main definitions

* `KeepsAncestors`: what a client's callback can do about the ancestors of entries.
* `FileSystem.Recorded`: the ancestors that a read hands on are reads of its chain.
* `FileSystem.LeadsBack`: what a loop error says.
* `FileSystem.LoopErrorsGenuine`: all loop errors of a walk are genuine.

## Main results

* `FileSystem.recorded_of_readChain`: the ancestors of every read are reads of its chain.
* `FileSystem.leadsBack_of_followSymlink`: a refused link leads back to a directory of its chain.
* `FileSystem.loopErrorsGenuine`: links to directories outside their own chain are never refused.
-/

namespace JwalkMeta

open Interaction

variable {B E : Type}

/-- The ancestors of an entry cannot be seen by a client: the entries that its callback leaves have
those that they came with, or none if they were made anew. At the root the callback can keep the
root from being read, but it does not have another directory read in its place. -/
def KeepsAncestors (process : ProcessReadDirFunction B E) : Prop :=
  ∀ depth path state results, ∀ e', .ok e' ∈ (process depth path state results).2 →
    e'.followLinkAncestors = none ∨ ∃ e, .ok e ∈ results ∧
      e'.followLinkAncestors = e.followLinkAncestors ∧
      (depth = none → ∀ path ∈ e'.readChildrenPath, path ∈ e.readChildrenPath)

/-! ### What is recorded -/

namespace FileSystem

variable {ι : Type} {fs : FileSystem ι} {getdents : Bool} {opts : WalkDirOptions B E} {root : Path}
  {state : B} {spec child : ReadDirSpec B} {chain : List (ReadDirSpec B)} {d d' : ι}

/-- The ancestors that a read hands on to the entries of its directory are reads of its chain. -/
def Recorded (fs : FileSystem ι) (ancestors : Option (List AncestorIdentity))
    (chain : List (ReadDirSpec B)) : Prop :=
  ∀ a ∈ ancestors.getD [], ∃ x ∈ chain, AncestorIdentity.fromPath fs.systemCalls x.path = some a

theorem recorded_none : fs.Recorded none chain := by
  simp [Recorded]

theorem Recorded.cons {ancestors : Option (List AncestorIdentity)}
    (h : fs.Recorded ancestors chain) (spec : ReadDirSpec B) :
    fs.Recorded ancestors (spec :: chain) := by
  intro a ha
  obtain ⟨x, hx, hfrom⟩ := h a ha
  exact ⟨x, List.mem_cons_of_mem _ hx, hfrom⟩

/-- The directory itself is recorded for its entries. -/
theorem Recorded.extendAncestors (h : fs.Recorded spec.followLinkAncestors (spec :: chain))
    (followLinks : Bool) :
    fs.Recorded (extendAncestors fs.systemCalls followLinks spec.path spec.followLinkAncestors)
      (spec :: chain) := by
  unfold JwalkMeta.extendAncestors
  split_ifs
  · intro a ha
    rw [Option.getD_some, List.mem_append] at ha
    rcases ha with ha | ha
    · exact h a ha
    · exact ⟨spec, List.mem_cons_self, Option.mem_toList.mp ha⟩
  · exact h

/-! ### Refused links -/

/-- The entry is found in the directory that its parent path leads to. -/
def IsEntry (fs : FileSystem ι) (e : DirEntry E) (o : ι) : Prop :=
  ValidName e.fileName ∧ ∃ d m, fs.resolve fs.maxLinks fs.cwd e.parentPath.components = .ok (d, m) ∧
    fs.lookup d (.normal e.fileName) = .ok o

/-- What a loop error for an entry says: the link is the entry itself, the ancestor is the path of a
read of the chain, and the link leads back to the very directory that was read there. -/
structure LeadsBack (fs : FileSystem ι) (chain : List (ReadDirSpec B)) (e : DirEntry E)
    (ancestor child : Path) : Prop where
  child_eq : child = e.path
  exists_read : ∃ x ∈ chain, x.path = ancestor
  exists_dir : ∃ d, (fs.node d).isDir = true ∧ fs.stat e.path = .ok d ∧
    fs.stat ancestor = .ok d ∧ fs.lstat ancestor = .ok d

theorem metadata_eq_ok {path : Path} {metadata : Metadata}
    (h : fs.systemCalls.metadata path = .ok metadata) :
    ∃ d, fs.stat path = .ok d ∧ metadata = (fs.statx d).metadata := by
  cases hstat : fs.stat path with
  | error err => simp [systemCalls, hstat, Except.map] at h
  | ok d =>
    simp only [systemCalls, hstat, Except.map] at h
    exact ⟨d, rfl, (Except.ok.inj h).symm⟩

theorem readLink_eq_ok {path target : Path} {o : ι} (h : fs.systemCalls.readLink path = .ok target)
    (hlstat : fs.lstat path = .ok o) : fs.node o = .link target := by
  simp only [systemCalls, hlstat, Bind.bind, Except.bind] at h
  cases hnode : fs.node o with
  | link target' =>
    simp only [hnode] at h
    rw [Except.ok.inj h]
  | _ => simp [hnode, throw, throwThe, MonadExceptOf.throw] at h

/-- A recorded read whose identity is that of a directory was not entered through a link. -/
theorem lstat_of_ancestorIdentityEq {path : Path} {a : AncestorIdentity}
    (h : AncestorIdentity.fromPath fs.systemCalls path = some a)
    (heq : DirEntry.ancestorIdentityEq (fs.statx d).metaDataExt a = true) :
    a.path = path ∧ fs.lstat path = .ok d := by
  cases hlstat : fs.lstat path with
  | error err => simp [AncestorIdentity.fromPath, systemCalls, hlstat, Except.map] at h
  | ok o =>
    obtain rfl := Option.some.inj ((fromPath_eq hlstat).symm.trans h)
    exact ⟨rfl, by rw [ancestorIdentityEq_iff.mp heq]⟩

/-- **A refused link leads back to a directory of its chain.** -/
theorem leadsBack_of_followSymlink [Inhabited E] {e : DirEntry E} {o : ι} {err : Error}
    {ancestor child : Path} (hentry : fs.IsEntry e o)
    (hrecorded : fs.Recorded e.followLinkAncestors chain)
    (h : e.followSymlink fs.systemCalls = .error err) (hloop : err.inner = .loop ancestor child) :
    fs.LeadsBack chain e ancestor child := by
  rcases DirEntry.of_followSymlink_error h with ⟨ioErr, rfl⟩ | ⟨hlink, metadata, hmetadata, hisDir⟩
  · cases hloop
  obtain ⟨hname, d, m, hparent, hlookup⟩ := hentry
  obtain ⟨d', hstat, rfl⟩ := metadata_eq_ok hmetadata
  have hdir : (fs.node d').isDir = true := (fs.isDir_mode d').symm.trans hisDir
  unfold DirEntry.linkError at hlink
  cases hread : fs.systemCalls.readLink e.path with
  | error ioErr =>
    rw [hread] at hlink
    obtain rfl := Option.some.inj hlink
    cases hloop
  | ok target =>
    -- the identity that is compared is that of the directory that the link leads to
    have hnode := readLink_eq_ok hread ((lstat_join hname hparent).trans hlookup)
    have hcanonical := (calls_of_link hname hparent hlookup hnode hstat hdir).2
    simp only [hread, hcanonical] at hlink
    obtain ⟨a, hfind, rfl⟩ := Option.map_eq_some_iff.mp hlink
    cases hloop
    cases hancestors : e.followLinkAncestors with
    | none => simp [hancestors, DirEntry.findLoop] at hfind
    | some ancestors =>
      simp only [hancestors, DirEntry.findLoop] at hfind
      have heq := List.find?_some hfind
      have hmem := List.mem_reverse.mp (List.mem_of_find?_eq_some hfind)
      obtain ⟨x, hx, hfrom⟩ := hrecorded a (by rwa [hancestors])
      obtain ⟨hpath, hlstat⟩ := lstat_of_ancestorIdentityEq hfrom heq
      rw [← hpath] at hlstat
      exact ⟨rfl, ⟨x, hx, hpath.symm⟩, d', hdir, hstat,
        stat_of_lstat hlstat (Node.isLink_of_isDir hdir), hlstat⟩

section Walk

variable [Inhabited E]

/-! ### The root -/

variable (hfollow : opts.followLinks = true)

/-- The entry of a root that is a link. -/
theorem isEntry_rootEntry {e : DirEntry E} (h : rootEntry fs.systemCalls opts root = .ok e)
    (hlink : e.fileType.isSymlink = true) :
    e.path = root ∧ ∃ o, fs.IsEntry e o ∧ fs.lstat root = .ok o ∧ (fs.node o).isLink = true := by
  cases hlstat : fs.lstat root with
  | error err => simp [rootEntry, DirEntry.fromPath, systemCalls, hlstat, Except.map] at h
  | ok o =>
    have hmetadata : fs.systemCalls.symlinkMetadata root = .ok (fs.statx o).metadata := by
      simp [systemCalls, hlstat, Except.map]
    simp only [rootEntry, DirEntry.fromPath, hmetadata, Bool.false_eq_true, ↓reduceIte] at h
    obtain rfl := Except.ok.inj h
    have hnode : (fs.node o).isLink = true := (fs.isSymlink_mode o).symm.trans hlink
    obtain ⟨parent, d, m, name, hroot, hparent, hfile, hvalid, hresolve, hlookup⟩ :=
      exists_name_of_link hlstat hnode
    refine ⟨?_, o, ⟨?_, d, m, ?_, ?_⟩, rfl, hnode⟩
    · simp only [DirEntry.path, hparent, hfile, Option.getD_some]
      exact hroot.symm
    · simpa only [hfile, Option.getD_some] using hvalid
    · simpa only [hparent, Option.getD_some] using hresolve
    · simpa only [hfile, Option.getD_some] using hlookup

include hfollow

theorem followLinkAncestors_rootEntry {e : DirEntry E}
    (h : rootEntry fs.systemCalls opts root = .ok e) :
    e.followLinkAncestors =
      (AncestorIdentity.fromPath fs.systemCalls root).map fun id => [id] := by
  have hancestors := (DirEntry.of_fromPath h).2.1
  rwa [if_pos hfollow] at hancestors

/-- The children of the root entry are read from the root. -/
theorem of_rootEntry {e e' : DirEntry E} (h : rootEntry fs.systemCalls opts root = .ok e)
    (hresult : processDirEntryResult fs.systemCalls opts.followLinks (.ok e) = .ok e') :
    e'.followLinkAncestors = (AncestorIdentity.fromPath fs.systemCalls root).map (fun id => [id]) ∧
      ∀ path ∈ e'.readChildrenPath, path = root := by
  have hancestors := followLinkAncestors_rootEntry hfollow h
  by_cases hlink : e.fileType.isSymlink = true
  · rw [processDirEntryResult_of_link _ (by rw [hfollow, hlink]; rfl)] at hresult
    obtain ⟨-, hancestors', -, hpath⟩ :=
      DirEntry.of_fromPath (DirEntry.fromPath_of_followSymlink hresult)
    rw [(isEntry_rootEntry h hlink).1] at hpath
    exact ⟨hancestors'.trans hancestors, hpath⟩
  · have hentry : processDirEntryResult fs.systemCalls opts.followLinks (.ok e) = .ok e := by
      simp [processDirEntryResult, hlink, hfollow, Bind.bind, Except.bind, pure, Except.pure]
    obtain rfl := Except.ok.inj (hentry.symm.trans hresult)
    exact ⟨hancestors, (DirEntry.of_fromPath h).2.2.2⟩

/-- A root that is a link is not refused: what is recorded for it is the link. -/
theorem not_loop_rootEntry {e : DirEntry E} {err : Error} {ancestor child : Path}
    (h : rootEntry fs.systemCalls opts root = .ok e) (hlink : e.fileType.isSymlink = true)
    (herror : e.followSymlink fs.systemCalls = .error err) :
    err.inner ≠ .loop ancestor child := by
  intro hloop
  obtain ⟨-, o, hentry, hlstat, hnode⟩ := isEntry_rootEntry h hlink
  have hrecorded : fs.Recorded e.followLinkAncestors
      [(⟨0, root, (), none⟩ : ReadDirSpec Unit)] := by
    rw [followLinkAncestors_rootEntry hfollow h, fromPath_eq hlstat]
    intro a ha
    obtain rfl := List.mem_singleton.mp ha
    exact ⟨_, List.mem_singleton_self _, fromPath_eq hlstat⟩
  obtain ⟨-, ⟨x, hx, hpath⟩, d, hdir, -, -, hlstat'⟩ :=
    leadsBack_of_followSymlink hentry hrecorded herror hloop
  obtain rfl := List.mem_singleton.mp hx
  obtain rfl : root = ancestor := hpath
  obtain rfl := Except.ok.inj (hlstat.symm.trans hlstat')
  simp [Node.isLink_of_isDir hdir] at hnode

/-! ### The chains of reads -/

variable (hprocess : ∀ process ∈ opts.processReadDir, KeepsAncestors process)

include hprocess

omit hfollow [Inhabited E] in
/-- The ancestors of an entry that a client's callback leaves. -/
theorem followLinkAncestors_of_leaves {depth : Option ℕ}
    {results : List (Except Error (DirEntry E))} {e' : DirEntry E}
    (h : opts.Leaves depth results (.ok e')) :
    e'.followLinkAncestors = none ∨ ∃ e, .ok e ∈ results ∧
      e'.followLinkAncestors = e.followLinkAncestors ∧
      (depth = none → ∀ path ∈ e'.readChildrenPath, path ∈ e.readChildrenPath) := by
  unfold WalkDirOptions.Leaves at h
  cases hcallback : opts.processReadDir with
  | none =>
    rw [hcallback] at h
    exact Or.inr ⟨e', h, rfl, fun _ _ => id⟩
  | some process =>
    rw [hcallback] at h
    obtain ⟨path, state, results', hperm, hmem⟩ := h
    refine (hprocess process hcallback depth path state results' e' hmem).imp_right ?_
    rintro ⟨e, he, hancestors, hpath⟩
    exact ⟨e, hperm.mem_iff.mp he, hancestors, hpath⟩

/-- The ancestors of a read at the root. -/
theorem recorded_of_rootReads (h : spec ∈ fs.rootReads getdents opts root state) :
    fs.Recorded spec.followLinkAncestors [spec] := by
  obtain ⟨e', hmem, hspec⟩ := exists_entry_of_mem_rootSpecs h
  obtain ⟨path, hpath, rfl⟩ := Option.map_eq_some_iff.mp hspec
  have hleaves := leaves_of_mem_rootEntryResults hmem
  rw [systemCalls_host] at hleaves
  rcases followLinkAncestors_of_leaves hprocess hleaves with hnone | ⟨e, he, hancestors, hkeeps⟩
  · change fs.Recorded e'.followLinkAncestors _
    rw [hnone]
    exact recorded_none
  · have hresult := List.mem_singleton.mp he
    cases hroot : rootEntry (E := E) fs.systemCalls opts root with
    | error err =>
      rw [hroot] at hresult
      cases hresult
    | ok entry =>
      rw [hroot] at hresult
      obtain ⟨hfrom, hread⟩ := of_rootEntry hfollow hroot hresult.symm
      obtain rfl := hread path (hkeeps rfl path hpath)
      intro a ha
      change a ∈ e'.followLinkAncestors.getD [] at ha
      rw [hancestors, hfrom] at ha
      cases hidentity : AncestorIdentity.fromPath fs.systemCalls path with
      | none => simp [hidentity] at ha
      | some identity =>
        simp only [hidentity, Option.map_some, Option.getD_some, List.mem_singleton] at ha
        exact ⟨_, List.mem_singleton_self _, ha ▸ hidentity⟩

omit hfollow in
/-- A read hands the ancestors that it hands to its entries on to the reads that it leads to. -/
theorem followLinkAncestors_of_spawns
    (h : (coreReadDirCallback (E := E) (fs.host getdents) opts).Spawns spec child) :
    child.followLinkAncestors = none ∨ child.followLinkAncestors =
      extendAncestors fs.systemCalls opts.followLinks spec.path spec.followLinkAncestors := by
  rcases spawns_cases h with ⟨attempt, name, -, rfl⟩ | ⟨ctx, result, hreturn, hchild⟩
  · -- it is scheduled while the directory is enumerated
    right
    rw [systemCalls_host]
    rfl
  · -- an entry asks for it
    obtain ⟨readDir, e', rfl, hmem, hspec⟩ := exists_entry_of_mem_childSpecs hchild
    obtain ⟨path, -, rfl⟩ := Option.map_eq_some_iff.mp hspec
    obtain ⟨attempt, results, hlisting, hleaves⟩ := leaves_of_mayReturn hreturn hmem
    rw [systemCalls_host] at hlisting
    refine (followLinkAncestors_of_leaves hprocess hleaves).imp_right ?_
    rintro ⟨e, he, hancestors, -⟩
    refine hancestors.trans ?_
    rcases entered_of_mem_rawListing hlisting he with ⟨entry, hentered, hresult⟩ | ⟨_, _, herr, -⟩
    · exact (of_processDirEntryResult_ok hresult.symm).2.1.trans hentered.ancestors_eq
    · cases herr

/-- **The ancestors of every read are reads of its chain.** -/
theorem recorded_of_readChain (h : fs.ReadChain getdents opts root state (spec :: chain)) :
    fs.Recorded spec.followLinkAncestors (spec :: chain) := by
  generalize hl : spec :: chain = l at h
  induction h generalizing spec chain with
  | root hspec =>
    obtain ⟨rfl, rfl⟩ := List.cons.inj hl
    exact recorded_of_rootReads hfollow hprocess hspec
  | @child parent child l hparent hspawns ih =>
    obtain ⟨rfl, rfl⟩ := List.cons.inj hl
    rcases followLinkAncestors_of_spawns hprocess hspawns with hnone | hancestors
    · rw [hnone]
      exact recorded_none
    · rw [hancestors]
      exact ((ih rfl).extendAncestors opts.followLinks).cons _

omit hfollow hprocess [Inhabited E] in
/-- The names that a listing reports are those of entries of the directory. -/
theorem exists_entry_of_mem_names {req : ReadRequest B} {name : OsString} {attempt : ℕ}
    (h : name ∈ (fs.host getdents).names req.path attempt) :
    ∃ d o, fs.stat req.path = .ok d ∧ (name, o) ∈ (fs.node d).entries := by
  cases hopen : fs.openDir req.path with
  | error err =>
    cases getdents <;>
      simp [host, OperatingSystem.names, linuxRecords, linux, unix, hopen, Except.map] at h
  | ok d =>
    have hnames : (fs.host getdents).names req.path attempt = (fs.node d).entries.map Prod.fst := by
      cases getdents with
      | true =>
        change (linuxRecords fs.linux req.path attempt).records.map _ = _
        rw [linuxRecords_eq hopen, List.map_map]
        rfl
      | false =>
        simp only [host, OperatingSystem.names, unix, hopen, Except.map, Bool.false_eq_true,
          ↓reduceIte, List.filterMap_map]
        exact congrFun List.filterMap_eq_map' _
    rw [hnames] at h
    obtain ⟨⟨_, o⟩, hmem, rfl⟩ := List.mem_map.mp h
    exact ⟨d, o, stat_of_openDir hopen, hmem⟩

omit hfollow hprocess [Inhabited E] in
/-- An entry of a listing is found in its directory. -/
theorem isEntry_of_entered {e : DirEntry E} {attempt : ℕ} {ctx : Option StreamingContext}
    (h : Entered (fs.host getdents) attempt (readRequest fs.systemCalls opts spec ctx) e) :
    ∃ o, fs.IsEntry e o := by
  obtain ⟨d, o, hstat, hmem⟩ := exists_entry_of_mem_names h.fileName_mem
  obtain ⟨-, m, hresolve⟩ := stat_eq_ok_iff.mp hstat
  refine ⟨o, fs.validName d _ hmem, d, m, ?_, lookup_of_mem hmem⟩
  rw [h.parentPath_eq]
  exact hresolve

/-- A loop error for an entry of a read leads back to a directory of the chain of the read. -/
theorem leadsBack_of_entered {e : DirEntry E} {attempt : ℕ} {ctx : Option StreamingContext}
    {err : Error} {ancestor link : Path}
    (hchain : fs.ReadChain getdents opts root state (spec :: chain))
    (h : Entered (fs.host getdents) attempt (readRequest fs.systemCalls opts spec ctx) e)
    (herror : e.followSymlink fs.systemCalls = .error err)
    (hloop : err.inner = .loop ancestor link) :
    fs.LeadsBack (spec :: chain) e ancestor link := by
  obtain ⟨o, hentry⟩ := isEntry_of_entered h
  refine leadsBack_of_followSymlink hentry ?_ herror hloop
  rw [h.ancestors_eq]
  exact (recorded_of_readChain hfollow hprocess hchain).extendAncestors opts.followLinks

omit hfollow hprocess in
/-- A loop error among the results of a listing comes from following one of its entries. -/
theorem followSymlink_of_mem_rawListing {results : List (Except Error (DirEntry E))}
    {attempt : ℕ} {ctx : Option StreamingContext} {err : Error} {ancestor link : Path}
    (hlisting : rawListing (fs.host getdents) opts attempt
      (readRequest fs.systemCalls opts spec ctx) = .ok results)
    (hmem : .error err ∈ results) (hloop : err.inner = .loop ancestor link) :
    ∃ e : DirEntry E,
      Entered (fs.host getdents) attempt (readRequest fs.systemCalls opts spec ctx) e ∧
      e.followSymlink fs.systemCalls = .error err := by
  rcases entered_of_mem_rawListing hlisting hmem with ⟨e, hentered, hresult⟩ | ⟨_, _, hresult, -⟩
  · refine ⟨e, hentered, ?_⟩
    rw [systemCalls_host] at hresult
    by_cases hlink : (opts.followLinks && e.fileType.isSymlink) = true
    · rw [processDirEntryResult_of_link _ hlink] at hresult
      exact hresult.symm
    · -- an entry below the root that is not followed stays as it is
      have hdepth : e.depth ≠ 0 := by
        rw [hentered.depth_eq]
        exact saturatingAdd_one_ne_zero _
      rw [processDirEntryResult_of_not_link _ (by simpa using hlink) hdepth] at hresult
      cases hresult
  · obtain rfl := Except.error.inj hresult
    cases hloop

/-! ### All loop errors of a walk -/

/-- **All loop errors of a walk are genuine.** -/
structure LoopErrorsGenuine (fs : FileSystem ι) (getdents : Bool) (opts : WalkDirOptions B E)
    (root : Path) (state : B) : Prop where
  /-- The root is never refused. -/
  root_not_loop : ∀ e : DirEntry E, rootEntry fs.systemCalls opts root = .ok e →
    e.fileType.isSymlink = true → ∀ err, e.followSymlink fs.systemCalls = .error err →
    ∀ ancestor link, err.inner ≠ .loop ancestor link
  /-- Every read of the serial walk is in a chain. -/
  serial : ∀ minDepth n, ∀ spec ∈ (serialWalk (rootEntryResults (fs.host getdents) opts root state)
    minDepth).reads (coreReadDirCallback (E := E) (fs.host getdents) opts) n,
    ∃ chain, fs.ReadChain getdents opts root state (spec :: chain)
  /-- So is every read of a parallel walk, for all interleavings. -/
  parallel : ∀ N capacity hcapacity sendsMayFail maxReceiveBufferSize,
    ∀ st : RunState (ReadDirSpec B) (ReadDirResult B E) N, RunState.Reaches
      (.walk (coreReadDirCallback (fs.host getdents) opts) capacity hcapacity sendsMayFail)
      (.init N (rootItems (fs.rootReads getdents opts root state)) maxReceiveBufferSize) st →
    ∀ item ∈ st.taken, ∃ chain, fs.ReadChain getdents opts root state (item.value :: chain)
  /-- Following an entry of a read gives a loop error only if the entry leads back to a directory
  of the chain of the read. -/
  leadsBack : ∀ spec chain, fs.ReadChain getdents opts root state (spec :: chain) →
    ∀ attempt ctx, ∀ e : DirEntry E,
    Entered (fs.host getdents) attempt (readRequest fs.systemCalls opts spec ctx) e →
    ∀ err, e.followSymlink fs.systemCalls = .error err →
    ∀ ancestor link, err.inner = .loop ancestor link → fs.LeadsBack (spec :: chain) e ancestor link
  /-- All loop errors of a read come from following one of its entries. -/
  entered : ∀ spec chain, fs.ReadChain getdents opts root state (spec :: chain) →
    ∀ attempt ctx results, rawListing (fs.host getdents) opts attempt
      (readRequest fs.systemCalls opts spec ctx) = .ok results →
    ∀ err, .error err ∈ results → ∀ ancestor link, err.inner = .loop ancestor link →
    ∃ e : DirEntry E,
      Entered (fs.host getdents) attempt (readRequest fs.systemCalls opts spec ctx) e ∧
      e.followSymlink fs.systemCalls = .error err

omit hfollow hprocess in
/-- **Loop errors are never false alarms.** -/
theorem loopErrorsGenuine (fs : FileSystem ι) (getdents : Bool) (opts : WalkDirOptions B E)
    (hfollow : opts.followLinks = true)
    (hprocess : ∀ process ∈ opts.processReadDir, KeepsAncestors process) (root : Path)
    (state : B) : fs.LoopErrorsGenuine getdents opts root state where
  root_not_loop _ h hlink _ herror _ _ := not_loop_rootEntry hfollow h hlink herror
  serial minDepth _ _ hspec :=
    (SerialWalk.stackDescends_serialWalk _ minDepth).of_mem_reads hspec
  parallel _ _ _ _ _ _ h _ hitem := RunState.descends_of_taken h hitem
  leadsBack _ _ hchain _ _ _ hentered _ herror _ _ hloop :=
    leadsBack_of_entered hfollow hprocess hchain hentered herror hloop
  entered _ _ _ _ _ _ hlisting _ hmem _ _ hloop :=
    followSymlink_of_mem_rawListing hlisting hmem hloop

end Walk

/-- The statement above for a callback that turns listings around, on the file system where the link
`b` in `x` leads back to `x`. -/
theorem loopErrorsGenuine_linked :
    linkedFs.LoopErrorsGenuine (E := Unit) true
      { followOptions with processReadDir := some fun _ _ state results =>
          (state, results.reverse) }
      ⟨[.rootDir, .normal [120]]⟩ () := by
  refine loopErrorsGenuine linkedFs true _ rfl ?_ _ _
  intro process hprocess depth path state results e' hmem
  obtain rfl := Option.some.inj hprocess
  exact Or.inr ⟨e', List.mem_reverse.mp hmem, rfl, fun _ _ => id⟩

/-- There the link is refused. -/
example : rawListing (E := Unit) (linkedFs.host true) followOptions 0
    ⟨⟨[.rootDir, .normal [120]]⟩, 0, 1, some [⟨⟨[.rootDir, .normal [120]]⟩, .unix 1 2⟩], (), none⟩ =
      .ok [.error (Error.fromLoop 1 ⟨[.rootDir, .normal [120]]⟩
        ⟨[.rootDir, .normal [120], .normal [98]]⟩)] := rfl

/-- A callback that has `/r` read in place of the root. -/
def movedOptions : WalkDirOptions Unit Unit :=
  { followOptions with
    processReadDir := some fun depth _ state results =>
      (state, results.map fun result => result.map fun e =>
        if depth = none then { e with readChildrenPath := some ⟨[.rootDir, .normal [114]]⟩ }
        else e) }

/-- With this callback and the root `/x`, the link `a` in `/r` is refused because it leads to `/x`,
which is not read. -/
theorem not_loopErrorsGenuine_moved :
    let spec : ReadDirSpec Unit := ⟨0, ⟨[.rootDir, .normal [114]]⟩, (),
      some [⟨⟨[.rootDir, .normal [120]]⟩, .unix 1 2⟩]⟩
    linkedFs.ReadChain (E := Unit) true movedOptions ⟨[.rootDir, .normal [120]]⟩ () [spec] ∧
    rawListing (E := Unit) (linkedFs.host true) movedOptions 0
        (readRequest linkedFs.systemCalls movedOptions spec none) =
      .ok [.error (Error.fromLoop 1 ⟨[.rootDir, .normal [120]]⟩
        ⟨[.rootDir, .normal [114], .normal [97]]⟩)] ∧
    ¬ linkedFs.LoopErrorsGenuine (E := Unit) true movedOptions ⟨[.rootDir, .normal [120]]⟩ () := by
  intro spec
  have hchain : linkedFs.ReadChain (E := Unit) true movedOptions ⟨[.rootDir, .normal [120]]⟩ ()
      [spec] := .root (by decide +kernel)
  have hlisting : rawListing (E := Unit) (linkedFs.host true) movedOptions 0
      (readRequest linkedFs.systemCalls movedOptions spec none) =
        .ok [.error (Error.fromLoop 1 ⟨[.rootDir, .normal [120]]⟩
          ⟨[.rootDir, .normal [114], .normal [97]]⟩)] := rfl
  refine ⟨hchain, hlisting, fun h => ?_⟩
  obtain ⟨e, hentered, herror⟩ :=
    h.entered _ _ hchain _ _ _ hlisting _ (List.mem_singleton_self _) _ _ rfl
  obtain ⟨x, hx, hpath⟩ :=
    (h.leadsBack _ _ hchain _ _ e hentered _ herror _ _ rfl).exists_read
  obtain rfl := List.mem_singleton.mp hx
  exact absurd hpath (by decide)

end FileSystem

end JwalkMeta
