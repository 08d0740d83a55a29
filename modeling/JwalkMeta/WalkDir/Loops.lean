import JwalkMeta.WalkDir.IntoIter
import JwalkMeta.WalkDir.Reads
import Mathlib.Data.Fintype.EquivFin
import Mathlib.SetTheory.Cardinal.Finite

/-!
# Following links

A walk that follows links compares the target of each link with the directories that it has come
through. These are recorded by `symlink_metadata`, so a directory that was entered through a link is
recorded with the identity of the link, and real directories are not compared at all. This file says
exactly for which file systems no directory is entered twice on the way down from the root.

A *trail* is a way down a file system, without regard to what the walk records. The condition is
about trails of distinct directories: an entry that leads back to one of them has to be a link, and
the directory must not have been entered through a link itself.

Source: `src/core/dir_entry.rs`, `src/core/metadata.rs`, `src/lib.rs`.

## Main definitions

* `FileSystem.Trail`: the ways down a file system.
* `FileSystem.Guarded`: the condition on a file system.
* `FileSystem.NeverReenters`: no directory is entered twice on the way down, and the walk ends.

## Main results

* `FileSystem.neverReenters_iff`: when a walk that follows links never enters a directory again.
-/

namespace JwalkMeta

open Interaction

variable {B E : Type}

/-! ### Links and ancestors -/

namespace FileSystem

variable {ι : Type} {fs : FileSystem ι} {d d' o : ι} {m : ℕ} {path parentPath target : Path}
  {name : OsString} {ancestors : Option (List AncestorIdentity)}

/-- The directory that a path leads to can be opened. -/
theorem openDir_of_stat (h : fs.stat path = .ok d) (hdir : (fs.node d).isDir = true) :
    fs.openDir path = .ok d := by
  simp [openDir, h, hdir, Bind.bind, Except.bind, pure, Except.pure]

theorem stat_of_openDir (h : fs.openDir path = .ok d) : fs.stat path = .ok d := by
  cases hstat : fs.stat path with
  | error err => simp [openDir, hstat, Bind.bind, Except.bind] at h
  | ok d' =>
    simp only [openDir, hstat, Bind.bind, Except.bind] at h
    split_ifs at h
    exact h

/-- What an entry of a directory is named by the path of the directory and its own name. -/
theorem lstat_entry (h : fs.stat path = .ok d) {e : OsString × ι}
    (he : e ∈ (fs.node d).entries) : fs.lstat (path.join e.1) = .ok e.2 := by
  obtain ⟨-, k, hresolve⟩ := stat_eq_ok_iff.mp h
  rw [lstat_join (fs.validName d e he) hresolve, lookup_of_mem he]

/-- A link is found by its name only. -/
theorem exists_entry_of_link {c : Component} (hlookup : fs.lookup d c = .ok o)
    (hlink : (fs.node o).isLink = true) :
    ∃ name, c = .normal name ∧ (name, o) ∈ (fs.node d).entries := by
  have hnot (h : (fs.node o).isDir = true) : False := by
    simp [Node.isLink_of_isDir h] at hlink
  cases c with
  | rootDir =>
    obtain rfl := Except.ok.inj hlookup
    exact (hnot fs.isDir_root).elim
  | curDir =>
    simp only [lookup] at hlookup
    split_ifs at hlookup with hdir
    obtain rfl := Except.ok.inj hlookup
    exact (hnot hdir).elim
  | parentDir =>
    simp only [lookup] at hlookup
    split_ifs at hlookup with hdir
    obtain rfl := Except.ok.inj hlookup
    exact (hnot (fs.isDir_parent d hdir)).elim
  | normal name =>
    simp only [lookup] at hlookup
    split_ifs at hlookup with hdir
    split at hlookup
    · rename_i o' hfound
      obtain rfl := Except.ok.inj hlookup
      obtain ⟨l₁, l₂, hsplit, -⟩ := List.lookup_eq_some_iff.mp hfound
      exact ⟨name, rfl, by simp [hsplit]⟩
    · cases hlookup

/-- A path to a link ends in the name of the link. -/
theorem exists_name_of_link (hlstat : fs.lstat path = .ok o)
    (hlink : (fs.node o).isLink = true) :
    ∃ parent d m name, path = parent.join name ∧ path.parent = some parent ∧
      path.fileName = some name ∧ ValidName name ∧
      fs.resolve fs.maxLinks fs.cwd parent.components = .ok (d, m) ∧
      fs.lookup d (.normal name) = .ok o := by
  unfold lstat at hlstat
  split at hlstat
  · cases hlstat
  · rename_i c hc
    obtain ⟨l, hl⟩ := List.getLast?_eq_some_iff.mp hc
    rw [hl, List.dropLast_concat] at hlstat
    cases hparent : fs.resolve fs.maxLinks fs.cwd l with
    | error err =>
      rw [hparent] at hlstat
      cases hlstat
    | ok r =>
      rw [hparent] at hlstat
      obtain ⟨name, rfl, hmem⟩ := exists_entry_of_link hlstat hlink
      have hvalid := fs.validName r.1 (name, o) hmem
      refine ⟨⟨l⟩, r.1, r.2, name, ?_, ?_, ?_, hvalid, hparent, hlstat⟩
      · have hjoin := hvalid.components_join ⟨l⟩
        obtain ⟨components⟩ := path
        rw [hl.symm] at hjoin
        exact congrArg Path.mk hjoin.symm
      · simp [Path.parent, hl]
      · simp [Path.fileName, hl]

/-- A recorded directory. -/
theorem fromPath_eq (h : fs.lstat path = .ok o) :
    AncestorIdentity.fromPath fs.systemCalls path =
      some ⟨path, (fs.statx o).metaDataExt.identity⟩ := by
  simp [AncestorIdentity.fromPath, systemCalls, h, Except.map, getMetadataExt, Statx.metadata]

/-- The comparison of identities on a file system. -/
theorem ancestorIdentityEq_iff :
    DirEntry.ancestorIdentityEq (fs.statx d).metaDataExt
      ⟨path, (fs.statx o).metaDataExt.identity⟩ = true ↔ o = d := by
  refine ⟨fun h => fs.identity_injective ?_, fun h => ?_⟩
  · simp only [DirEntry.ancestorIdentityEq, Statx.metaDataExt, MetaDataExt.identity,
      Bool.and_eq_true, beq_iff_eq] at h ⊢
    rw [h.1, h.2]
  · simp [h, DirEntry.ancestorIdentityEq, Statx.metaDataExt, MetaDataExt.identity]

/-- The calls on a link that leads to a directory. -/
theorem calls_of_link (hname : ValidName name)
    (hparent : fs.resolve fs.maxLinks fs.cwd parentPath.components = .ok (d, m))
    (hlookup : fs.lookup d (.normal name) = .ok o) (hlink : fs.node o = .link target)
    (h : fs.stat (parentPath.join name) = .ok d') (hdir : (fs.node d').isDir = true) :
    fs.systemCalls.readLink (parentPath.join name) = .ok target ∧
      fs.systemCalls.metadata (((fs.systemCalls.canonicalize
        (if target.isAbsolute then target else parentPath.joinPath target)).toOption).getD
        (if target.isAbsolute then target else parentPath.joinPath target)) =
          .ok (fs.statx d').metadata := by
  have hlstat := (lstat_join hname hparent).trans hlookup
  have htarget := stat_resolvedTarget hname hparent hlookup hlink h
  have hcanonical := stat_canonicalPath (Node.isLink_of_isDir hdir)
  refine ⟨?_, ?_⟩
  · simp [systemCalls, hlstat, hlink, Bind.bind, Except.bind, pure, Except.pure]
  · simp [systemCalls, htarget, Except.map, Except.toOption, hcanonical]

/-- A link leads to a directory that is read if it leads to a directory that is not found among the
ancestors. -/
theorem leadsToDirectory_iff (hname : ValidName name)
    (hparent : fs.resolve fs.maxLinks fs.cwd parentPath.components = .ok (d, m))
    (hlookup : fs.lookup d (.normal name) = .ok o) (hlink : (fs.node o).isLink = true) :
    leadsToDirectory fs.systemCalls ancestors parentPath name = true ↔
      ∃ d', fs.stat (parentPath.join name) = .ok d' ∧ (fs.node d').isDir = true ∧
        DirEntry.findLoop ancestors (fs.statx d').metaDataExt = none := by
  obtain ⟨target, htarget⟩ : ∃ target, fs.node o = .link target := by
    cases hnode : fs.node o with
    | link target => exact ⟨target, rfl⟩
    | _ => simp [hnode, Node.isLink] at hlink
  cases hstat : fs.stat (parentPath.join name) with
  | error err => simp [leadsToDirectory, systemCalls, hstat, Except.map]
  | ok d' =>
    have hmetadata : fs.systemCalls.metadata (parentPath.join name) =
        .ok (fs.statx d').metadata := by
      simp [systemCalls, hstat, Except.map]
    have hfile : (fs.statx d').metadata.fileType.isDir = (fs.node d').isDir := fs.isDir_mode d'
    by_cases hdir : (fs.node d').isDir = true
    · obtain ⟨hread, hcanonical⟩ := calls_of_link hname hparent hlookup htarget hstat hdir
      simp only [leadsToDirectory, hmetadata, hread, hcanonical, hfile, hdir, Bool.true_and,
        Option.isNone_iff_eq_none]
      simp [getMetadataExt, Statx.metadata, hdir]
    · cases hread : fs.systemCalls.readLink (parentPath.join name) <;>
        simp [leadsToDirectory, hmetadata, hread, hfile, hdir]

/-- A followed link to a directory that is found among the ancestors is a loop. -/
theorem followSymlink_of_findLoop [Inhabited E] {e : DirEntry E} {ancestor : AncestorIdentity}
    (hname : ValidName e.fileName)
    (hparent : fs.resolve fs.maxLinks fs.cwd e.parentPath.components = .ok (d, m))
    (hlookup : fs.lookup d (.normal e.fileName) = .ok o) (hlink : fs.node o = .link target)
    (h : fs.stat e.path = .ok d') (hdir : (fs.node d').isDir = true)
    (hloop : DirEntry.findLoop e.followLinkAncestors (fs.statx d').metaDataExt = some ancestor) :
    e.followSymlink fs.systemCalls = .error (Error.fromLoop e.depth ancestor.path e.path) := by
  obtain ⟨hread, hcanonical⟩ := calls_of_link hname hparent hlookup hlink h hdir
  have hmetadata : fs.systemCalls.metadata e.path = .ok (fs.statx d').metadata := by
    simp [systemCalls, h, Except.map]
  have hfile : (fs.statx d').metadata.fileType.isDir = true := (fs.isDir_mode d').trans hdir
  have hext : getMetadataExt (fs.statx d').metadata = (fs.statx d').metaDataExt := rfl
  simp only [DirEntry.followSymlink, DirEntry.fromPath, hmetadata, ↓reduceIte, Bind.bind,
    Except.bind, hfile]
  rw [DirEntry.path, hread]
  simp only [hcanonical, hext, hloop]
  rfl

/-! ### Trails -/

/-- A directory on the way down: the path it was entered by, and whether this ends in a link. -/
structure Stop (ι : Type) where
  path : Path
  dir : ι
  viaLink : Bool

/-- The path of a stop leads to its directory, through a link or not. -/
structure IsStop (fs : FileSystem ι) (s : Stop ι) : Prop where
  stat_eq : fs.stat s.path = .ok s.dir
  isDir : (fs.node s.dir).isDir = true
  lstat_eq : ∃ o, fs.lstat s.path = .ok o ∧ (fs.node o).isLink = s.viaLink

/-- One stop leads to another through a visible entry of its directory. -/
def LeadsTo (fs : FileSystem ι) (opts : WalkDirOptions B E) (s s' : Stop ι) : Prop :=
  fs.IsStop s' ∧ ∃ e ∈ (fs.node s.dir).entries, visible opts e = true ∧ s'.path = s.path.join e.1

/-- The ways down from the root, the latest stop first. The rule `admits` says where a way may go
on. -/
inductive Trail (fs : FileSystem ι) (opts : WalkDirOptions B E) (root : Path)
    (admits : List (Stop ι) → Stop ι → Prop) : List (Stop ι) → Prop
  | root {s : Stop ι} : fs.IsStop s → s.path = root → Trail fs opts root admits [s]
  | step {s s' : Stop ι} {t : List (Stop ι)} : Trail fs opts root admits (s :: t) →
      fs.LeadsTo opts s s' → admits (s :: t) s' → Trail fs opts root admits (s' :: s :: t)

/-- A directory that is not on the trail. -/
def Fresh (t : List (Stop ι)) (s : Stop ι) : Prop := ∀ x ∈ t, x.dir ≠ s.dir

/-- What the detection of loops lets pass: directories, and links to directories that have not been
entered as directories. -/
def Unnoticed (t : List (Stop ι)) (s : Stop ι) : Prop :=
  s.viaLink = true → ∀ x ∈ t, x.viaLink = false → x.dir ≠ s.dir

variable {opts : WalkDirOptions B E} {root : Path} {s s' x y : Stop ι} {t : List (Stop ι)}
  {admits : List (Stop ι) → Stop ι → Prop}

theorem Trail.isStop (h : fs.Trail opts root admits t) : ∀ x ∈ t, fs.IsStop x := by
  induction h with
  | root hs _ => simpa using hs
  | step _ hleads _ ih =>
    intro x hx
    rcases List.mem_cons.mp hx with rfl | hx
    · exact hleads.1
    · exact ih x hx

/-- Trails of distinct directories are let pass. -/
theorem Trail.unnoticed (h : fs.Trail opts root Fresh t) : fs.Trail opts root Unnoticed t := by
  induction h with
  | root hs hpath => exact .root hs hpath
  | step _ hleads hfresh ih => exact .step ih hleads fun _ x hx _ => hfresh x hx

/-- The directories of a trail of distinct directories. -/
theorem Trail.nodup (h : fs.Trail opts root Fresh t) : (t.map Stop.dir).Nodup := by
  induction h with
  | root hs hpath => simp
  | @step s s' t _ hleads hfresh ih =>
    rw [List.map_cons, List.nodup_cons]
    refine ⟨fun hmem => ?_, ih⟩
    obtain ⟨x, hx, hdir⟩ := List.mem_map.mp hmem
    exact hfresh x hx hdir

theorem Trail.eq_of_dir (h : fs.Trail opts root Fresh t) (hx : x ∈ t) (hy : y ∈ t)
    (hdir : x.dir = y.dir) : x = y := List.inj_on_of_nodup_map h.nodup hx hy hdir

/-- A trail of distinct directories has at most as many stops as there are directories. -/
theorem Trail.length_le [Finite ι] (h : fs.Trail opts root Fresh t) :
    t.length ≤ Nat.card { d : ι // (fs.node d).isDir = true } := by
  have := Fintype.ofFinite { d : ι // (fs.node d).isDir = true }
  let dirOf (x : { x // x ∈ t }) : { d : ι // (fs.node d).isDir = true } :=
    ⟨x.1.dir, (h.isStop x.1 x.2).isDir⟩
  have hdirs : (t.attach.map dirOf).map Subtype.val = t.map Stop.dir := by
    rw [List.map_map]
    change t.attach.map (Stop.dir ∘ Subtype.val) = _
    rw [← List.map_map, List.attach_map_subtype_val]
  have hnodup : (t.attach.map dirOf).Nodup := by
    refine List.Nodup.of_map Subtype.val ?_
    rw [hdirs]
    exact h.nodup
  simpa [Nat.card_eq_fintype_card] using hnodup.length_le_card

/-! ### The condition and the property -/

/-- Whether the directory of the stop number `k` is opened. -/
def opens (opts : WalkDirOptions B E) (k : ℕ) : Prop := min (k + 1) usizeMax ≤ opts.maxDepth

theorem opens_of_succ {k : ℕ} (h : opens opts (k + 1)) : opens opts k := by
  unfold opens at h ⊢
  omega

/-- **The condition.** Whenever an entry of the last directory of a trail of distinct directories
leads back to a directory of the trail, the entry is a link and the directory was not entered
through a link; or the entry is a directory that is not opened because of its depth. -/
def Guarded (fs : FileSystem ι) (opts : WalkDirOptions B E) (root : Path) : Prop :=
  ∀ s t, fs.Trail opts root Fresh (s :: t) → opens opts t.length →
    ∀ s', fs.LeadsTo opts s s' → ∀ x ∈ s :: t, x.dir = s'.dir →
      if s'.viaLink then x.viaLink = false else ¬ opens opts (t.length + 1)

section Walk

variable [Inhabited E]

/-- The reads that a walk starts with. -/
def rootReads (fs : FileSystem ι) (getdents : Bool) (opts : WalkDirOptions B E) (root : Path)
    (state : B) : List (ReadDirSpec B) :=
  rootSpecs (rootEntryResults (fs.host getdents) opts root state)

/-- The chains of reads of a walk, from a read up to the root. -/
def ReadChain (fs : FileSystem ι) (getdents : Bool) (opts : WalkDirOptions B E) (root : Path)
    (state : B) : List (ReadDirSpec B) → Prop :=
  Lineage (fs.rootReads getdents opts root state)
    (coreReadDirCallback (E := E) (fs.host getdents) opts).Spawns

/-- Whether a read opens its directory. -/
def Opens (opts : WalkDirOptions B E) (spec : ReadDirSpec B) : Prop :=
  saturatingAdd spec.depth 1 ≤ opts.maxDepth

/-- **No directory is entered again** on the way down from the root, and the walk ends. -/
structure NeverReenters (fs : FileSystem ι) (getdents : Bool) (opts : WalkDirOptions B E)
    (root : Path) (state : B) : Prop where
  /-- The reads of a chain open distinct directories. -/
  nodup : ∀ spec chain, fs.ReadChain getdents opts root state (spec :: chain) → Opens opts spec →
    ((spec :: chain).map fun spec => fs.stat spec.path).Nodup
  /-- A link that leads to a directory of the chain is reported as a loop. -/
  loop : ∀ spec chain, fs.ReadChain getdents opts root state (spec :: chain) → Opens opts spec →
    ∀ d d', fs.stat spec.path = .ok d → ∀ e ∈ (fs.node d).entries, visible opts e = true →
    (fs.node e.2).isLink = true → fs.stat (spec.path.join e.1) = .ok d' →
    (∃ x ∈ spec :: chain, fs.stat x.path = .ok d') →
    ∀ ctx result, MayReturn (coreReadDirCallback (E := E) (fs.host getdents) opts spec ctx) result →
      ∃ readDir ancestor, result = .ok readDir ∧ .error (Error.fromLoop
        (saturatingAdd spec.depth 1) ancestor (spec.path.join e.1)) ∈ readDir.resultsList
  /-- It is not descended. -/
  not_descended : ∀ spec chain, fs.ReadChain getdents opts root state (spec :: chain) →
    Opens opts spec → ∀ d d', fs.stat spec.path = .ok d → ∀ e ∈ (fs.node d).entries,
    visible opts e = true → (fs.node e.2).isLink = true → fs.stat (spec.path.join e.1) = .ok d' →
    (∃ x ∈ spec :: chain, fs.stat x.path = .ok d') →
    ∀ child, (coreReadDirCallback (E := E) (fs.host getdents) opts).Spawns spec child →
      child.path ≠ spec.path.join e.1
  /-- The depth is bounded by the number of directories. -/
  depth_lt : ∀ spec chain, fs.ReadChain getdents opts root state (spec :: chain) →
    Opens opts spec → spec.depth < Nat.card { d : ι // (fs.node d).isDir = true }
  /-- The serial walk ends. -/
  serial : ∀ minDepth, ∃ items, (serialWalk (rootEntryResults (fs.host getdents) opts root state)
    minDepth).Yields (coreReadDirCallback (E := E) (fs.host getdents) opts) items
  /-- There is a bound on the reads of a parallel walk, for all interleavings. -/
  parallel : ∃ bound, ∀ N capacity hcapacity sendsMayFail maxReceiveBufferSize,
    ∀ st : RunState (ReadDirSpec B) (ReadDirResult B E) N, RunState.Reaches
      (.walk (coreReadDirCallback (fs.host getdents) opts) capacity hcapacity sendsMayFail)
      (.init N (rootItems (fs.rootReads getdents opts root state)) maxReceiveBufferSize) st →
    st.taken.length ≤ bound

/-! ### Chains of reads and trails -/

/-- A read of a directory on a trail: the ancestors that it hands to its entries are the recorded
stops. -/
structure Tracks (fs : FileSystem ι) (spec : ReadDirSpec B) (s : Stop ι) (t : List (Stop ι)) :
    Prop where
  path_eq : spec.path = s.path
  depth_eq : spec.depth = min t.length usizeMax
  ancestors : ∃ ancestors,
    extendAncestors fs.systemCalls true spec.path spec.followLinkAncestors = some ancestors ∧
    ∀ a, a ∈ ancestors ↔ ∃ x ∈ s :: t, AncestorIdentity.fromPath fs.systemCalls x.path = some a

variable {spec child : ReadDirSpec B} {getdents : Bool} {state : B}

omit [Inhabited E] in
theorem Tracks.opens_iff (h : fs.Tracks spec s t) : Opens opts spec ↔ opens opts t.length := by
  unfold Opens opens saturatingAdd
  rw [h.depth_eq]
  have : min (min t.length usizeMax + 1) usizeMax = min (t.length + 1) usizeMax := by omega
  rw [this]

/-- A link is a loop if it leads to a stop that was entered as a directory. -/
theorem findLoop_eq_none_iff {ancestors : List AncestorIdentity} (hstops : ∀ x ∈ t, fs.IsStop x)
    (hancestors : ∀ a, a ∈ ancestors ↔
      ∃ x ∈ t, AncestorIdentity.fromPath fs.systemCalls x.path = some a)
    (hdir : (fs.node d).isDir = true) :
    DirEntry.findLoop (some ancestors) (fs.statx d).metaDataExt = none ↔
      ∀ x ∈ t, x.viaLink = false → x.dir ≠ d := by
  simp only [DirEntry.findLoop, List.find?_eq_none, List.mem_reverse, hancestors]
  constructor
  · intro h x hx hvia heq
    obtain ⟨o, hlstat, hlink⟩ := (hstops x hx).lstat_eq
    refine h _ ⟨x, hx, fromPath_eq hlstat⟩ (ancestorIdentityEq_iff.mpr ?_)
    have hstat := (stat_of_lstat hlstat (hlink.trans hvia)).symm.trans (hstops x hx).stat_eq
    rw [Except.ok.inj hstat, heq]
  · rintro h a ⟨x, hx, ha⟩ hloop
    obtain ⟨o, hlstat, hlink⟩ := (hstops x hx).lstat_eq
    obtain rfl := Option.some.inj ((fromPath_eq hlstat).symm.trans ha)
    obtain rfl := ancestorIdentityEq_iff.mp hloop
    -- a recorded directory is not a link
    have hvia : x.viaLink = false := by rw [← hlink, Node.isLink_of_isDir hdir]
    have hstat := (stat_of_lstat hlstat (hlink.trans hvia)).symm.trans (hstops x hx).stat_eq
    exact h x hx hvia (Except.ok.inj hstat).symm

section Step

variable (hfollow : opts.followLinks = true) (htracks : fs.Tracks spec s t)
  (hstops : ∀ x ∈ s :: t, fs.IsStop x)

include hfollow htracks

omit [Inhabited E] in
/-- The read of an entry that a stop leads through. -/
theorem Tracks.subdirSpec {e : OsString × ι} (hpath : s'.path = s.path.join e.1) :
    fs.Tracks (subdirSpec (readRequest fs.systemCalls opts spec none) e.1) s' (s :: t) := by
  obtain ⟨ancestors, hancestors, hmem⟩ := htracks.ancestors
  refine ⟨?_, ?_, ?_⟩
  · rw [hpath, ← htracks.path_eq]
    rfl
  · change saturatingAdd spec.depth 1 = _
    rw [saturatingAdd, htracks.depth_eq, List.length_cons]
    omega
  · have hpath' : (readRequest fs.systemCalls opts spec none).path.join e.1 = s'.path := by
      rw [hpath, ← htracks.path_eq]
      rfl
    refine ⟨ancestors ++ (AncestorIdentity.fromPath fs.systemCalls s'.path).toList, ?_, fun a => ?_⟩
    · change extendAncestors _ _ (Path.join _ _) (extendAncestors _ opts.followLinks _ _) = _
      rw [hpath', hfollow, hancestors]
      rfl
    · simp only [List.mem_append, hmem, Option.mem_toList, List.mem_cons, exists_eq_or_imp]
      exact or_comm

include hstops

omit [Inhabited E] in
/-- An entry asks for a read if it leads to a stop that is let pass. -/
theorem Tracks.asks_iff {e : OsString × ι} (he : e ∈ (fs.node s.dir).entries) :
    fs.asks opts (readRequest fs.systemCalls opts spec none) e = true ↔
      visible opts e = true ∧
        ∃ s', s'.path = s.path.join e.1 ∧ fs.IsStop s' ∧ Unnoticed (s :: t) s' := by
  have hstop := hstops s List.mem_cons_self
  have hlstat := lstat_entry hstop.stat_eq he
  obtain ⟨-, m, hresolve⟩ := stat_eq_ok_iff.mp hstop.stat_eq
  have hlookup := lookup_of_mem he
  obtain ⟨ancestors, hancestors, hmem⟩ := htracks.ancestors
  have hancestors' : (readRequest fs.systemCalls opts spec none).followLinkAncestors =
      some ancestors := by
    rw [readRequest, hfollow, hancestors]
  have hpath : (readRequest fs.systemCalls opts spec none).path = s.path := htracks.path_eq
  have hleads (hlink : (fs.node e.2).isLink = true) :
      leadsToDirectory fs.systemCalls (some ancestors) s.path e.1 = true ↔ _ :=
    leadsToDirectory_iff (fs.validName s.dir e he) hresolve hlookup hlink
  rw [asks, Bool.and_eq_true, and_congr_right_iff]
  intro hvisible
  rw [hancestors', hpath, hfollow]
  constructor
  · intro hasks
    by_cases hlink : (fs.node e.2).isLink = true
    · have hdir : (fs.node e.2).isDir = false := by
        by_contra hdir
        simp [Node.isLink_of_isDir (by simpa using hdir)] at hlink
      simp only [hdir, hlink, Bool.true_and, Bool.false_or, hleads hlink] at hasks
      obtain ⟨d', hstat, hdir', hloop⟩ := hasks
      refine ⟨⟨s.path.join e.1, d', true⟩, rfl, ⟨hstat, hdir', e.2, hlstat, hlink⟩, fun _ => ?_⟩
      exact (findLoop_eq_none_iff hstops hmem hdir').mp hloop
    · have hdir : (fs.node e.2).isDir = true := by simpa [hlink] using hasks
      have hlink' := Node.isLink_of_isDir hdir
      exact ⟨⟨s.path.join e.1, e.2, false⟩, rfl,
        ⟨stat_of_lstat hlstat hlink', hdir, e.2, hlstat, hlink'⟩, fun h => by cases h⟩
  · rintro ⟨s', hpath', hstop', hunnoticed⟩
    obtain ⟨o, hlstat', hvia⟩ := hstop'.lstat_eq
    rw [hpath', hlstat] at hlstat'
    obtain rfl := Except.ok.inj hlstat'
    have hstat := hstop'.stat_eq
    rw [hpath'] at hstat
    by_cases hlink : (fs.node e.2).isLink = true
    · have hloop := (findLoop_eq_none_iff hstops hmem hstop'.isDir).mpr
        (hunnoticed (hvia.symm.trans hlink))
      simp [hlink, (hleads hlink).mpr ⟨s'.dir, hstat, hstop'.isDir, hloop⟩]
    · have hlink' : (fs.node e.2).isLink = false := by simpa using hlink
      have hdir : e.2 = s'.dir :=
        Except.ok.inj ((stat_of_lstat hlstat hlink').symm.trans hstat)
      simp [hdir, hstop'.isDir]

variable (hprocess : opts.processReadDir = none) (hopens : Opens opts spec)

include hprocess hopens

omit hfollow in
/-- The reads that a stop leads to are those that its entries ask for. -/
theorem Tracks.mem_spawns (getdents : Bool) :
    (coreReadDirCallback (E := E) (fs.host getdents) opts).Spawns spec child ↔
      ∃ e ∈ (fs.node s.dir).entries,
        fs.asks opts (readRequest fs.systemCalls opts spec none) e = true ∧
        JwalkMeta.subdirSpec (readRequest fs.systemCalls opts spec none) e.1 = child := by
  have hstop := hstops s List.mem_cons_self
  have hd : fs.openDir spec.path = .ok s.dir := by
    rw [htracks.path_eq]
    exact openDir_of_stat hstop.stat_eq hstop.isDir
  rw [spawns_iff hprocess hopens hd, subdirSpecs, List.mem_map]
  simp only [List.mem_filter, and_assoc]

/-- A read that a stop leads to is the read of a stop that is let pass. -/
theorem Tracks.of_spawns
    (h : (coreReadDirCallback (E := E) (fs.host getdents) opts).Spawns spec child) :
    ∃ s', fs.LeadsTo opts s s' ∧ Unnoticed (s :: t) s' ∧ fs.Tracks child s' (s :: t) := by
  obtain ⟨e, he, hasks, rfl⟩ := (htracks.mem_spawns hstops hprocess hopens getdents).mp h
  obtain ⟨hvisible, s', hpath, hstop, hunnoticed⟩ := (htracks.asks_iff hfollow hstops he).mp hasks
  exact ⟨s', ⟨hstop, e, he, hvisible, hpath⟩, hunnoticed, htracks.subdirSpec hfollow hpath⟩

/-- A stop that is let pass is read. -/
theorem Tracks.exists_spawns (getdents : Bool) (hleads : fs.LeadsTo opts s s')
    (hunnoticed : Unnoticed (s :: t) s') :
    ∃ child, (coreReadDirCallback (E := E) (fs.host getdents) opts).Spawns spec child ∧
      fs.Tracks child s' (s :: t) := by
  obtain ⟨hstop, e, he, hvisible, hpath⟩ := hleads
  refine ⟨_, (htracks.mem_spawns hstops hprocess hopens getdents).mpr ⟨e, he, ?_, rfl⟩,
    htracks.subdirSpec hfollow hpath⟩
  exact (htracks.asks_iff hfollow hstops he).mpr ⟨hvisible, s', hpath, hstop, hunnoticed⟩

end Step

/-! ### The root -/

omit [Inhabited E] in
theorem systemCalls_host (fs : FileSystem ι) (getdents : Bool) :
    (fs.host getdents).systemCalls = fs.systemCalls := by
  cases getdents <;> rfl

section Root

variable (getdents : Bool) (state : B) (hfollow : opts.followLinks = true)
  (hprocess : opts.processReadDir = none)

include hfollow hprocess

/-- The reads at the root are those that the root entry asks for once links are followed. -/
theorem rootReads_eq (hlstat : fs.lstat root = .ok o) :
    ∃ e : DirEntry E, e.depth = 0 ∧ e.fileName = root.fileName.getD root.asOsStr ∧
      e.parentPath = root.parent.getD ⟨[]⟩ ∧ e.fileType = (fs.statx o).metadata.fileType ∧
      e.readChildrenPath = (if (fs.node o).isDir then some root else none) ∧
      e.followLinkAncestors = some [⟨root, (fs.statx o).metaDataExt.identity⟩] ∧
      fs.rootReads getdents opts root state =
        (ReadDir.childSpec state (processDirEntryResult fs.systemCalls true (.ok e))).toList := by
  have hmetadata : fs.systemCalls.symlinkMetadata root = .ok (fs.statx o).metadata := by
    simp [systemCalls, hlstat, Except.map]
  have hdir : (fs.statx o).metadata.fileType.isDir = (fs.node o).isDir := fs.isDir_mode o
  simp only [rootReads, rootSpecs, rootEntryResults, systemCalls_host, hfollow, hprocess,
    DirEntry.fromPath, hmetadata, fromPath_eq hlstat, Bool.false_eq_true, ↓reduceIte, hdir,
    Option.map_some]
  have hsingle (result : Except Error (DirEntry E)) :
      [result].filterMap (ReadDir.childSpec state) = (ReadDir.childSpec state result).toList := by
    cases hspec : ReadDir.childSpec state result <;> simp [hspec]
  refine ⟨?entry, ?depth, ?name, ?parent, ?type, ?read, ?ancestors, ?reads⟩
  case reads => exact hsingle _
  all_goals rfl

omit hfollow in
/-- The reads at a root that does not exist. -/
theorem rootReads_of_error {err : IoError} (hlstat : fs.lstat root = .error err) :
    fs.rootReads getdents opts root state = [] := by
  have hmetadata : fs.systemCalls.symlinkMetadata root = .error err := by
    simp [systemCalls, hlstat, Except.map]
  simp [rootReads, rootSpecs, rootEntryResults, systemCalls_host, hprocess,
    DirEntry.fromPath, hmetadata, processDirEntryResult, ReadDir.childSpec]

/-- The reads at a root that is not a link. -/
theorem rootReads_of_not_link (hlstat : fs.lstat root = .ok o)
    (hlink : (fs.node o).isLink = false) :
    fs.rootReads getdents opts root state = if (fs.node o).isDir then
      [⟨0, root, state, some [⟨root, (fs.statx o).metaDataExt.identity⟩]⟩] else [] := by
  obtain ⟨e, hdepth, -, -, htype, hread, hancestors, hreads⟩ :=
    rootReads_eq getdents state hfollow hprocess hlstat
  have hsymlink : e.fileType.isSymlink = false := by
    rw [htype]
    exact (fs.isSymlink_mode o).trans hlink
  have hentry : processDirEntryResult fs.systemCalls true (.ok e) = .ok e := by
    simp [processDirEntryResult, hsymlink, Bind.bind, Except.bind, pure, Except.pure]
  rw [hreads, hentry]
  cases hdir : (fs.node o).isDir <;>
    simp [ReadDir.childSpec, DirEntry.readChildrenSpec, hread, hdir, hdepth, hancestors]

/-- The reads at a root that is a link. -/
theorem rootReads_of_link (hlstat : fs.lstat root = .ok o) (hlink : (fs.node o).isLink = true) :
    spec ∈ fs.rootReads getdents opts root state ↔
      (∃ d, fs.stat root = .ok d ∧ (fs.node d).isDir = true) ∧
        spec = ⟨0, root, state, some [⟨root, (fs.statx o).metaDataExt.identity⟩]⟩ := by
  obtain ⟨e, hdepth, hname, hparent, htype, -, hancestors, hreads⟩ :=
    rootReads_eq getdents state hfollow hprocess hlstat
  obtain ⟨parent, d, m, name, hroot, hroot', hfile, hvalid, hresolve, hlookup⟩ :=
    exists_name_of_link hlstat hlink
  rw [hfile, Option.getD_some] at hname
  rw [hroot', Option.getD_some] at hparent
  have hpath : e.path = root := by rw [DirEntry.path, hparent, hname, ← hroot]
  have hsymlink : e.fileType.isSymlink = true := by
    rw [htype]
    exact (fs.isSymlink_mode o).trans hlink
  have hentry : processDirEntryResult fs.systemCalls true (.ok e) =
      e.followSymlink fs.systemCalls := processDirEntryResult_of_link _ hsymlink
  -- the target is a directory, and what is recorded is the link
  have hleads : leadsToDirectory fs.systemCalls e.followLinkAncestors e.parentPath e.fileName =
      true ↔ ∃ d, fs.stat root = .ok d ∧ (fs.node d).isDir = true := by
    rw [hancestors, hparent, hname, leadsToDirectory_iff hvalid hresolve hlookup hlink, ← hroot]
    refine exists_congr fun d' => and_congr_right fun hstat =>
      ⟨fun h => h.1, fun hdir => ⟨hdir, ?_⟩⟩
    refine (findLoop_eq_none_iff (t := [⟨root, d', true⟩]) ?_ ?_ hdir).mpr ?_
    · simpa using ⟨hstat, hdir, o, hlstat, hlink⟩
    · simp [fromPath_eq hlstat, eq_comm]
    · simp
  rw [hreads, hentry, childSpec_followSymlink, ← hleads]
  by_cases h : leadsToDirectory fs.systemCalls e.followLinkAncestors e.parentPath e.fileName = true
  · rw [if_pos h, hdepth, hpath, hancestors, Option.toList_some, List.mem_singleton,
      ← hancestors, and_iff_right h]
  · rw [if_neg h]
    simp [h]

/-- The reads at the root. -/
theorem mem_rootReads :
    spec ∈ fs.rootReads getdents opts root state ↔
      ∃ s o, fs.IsStop s ∧ s.path = root ∧ fs.lstat root = .ok o ∧
        spec = ⟨0, root, state, some [⟨root, (fs.statx o).metaDataExt.identity⟩]⟩ := by
  cases hlstat : fs.lstat root with
  | error err => simp [rootReads_of_error getdents state hprocess hlstat]
  | ok o =>
    by_cases hlink : (fs.node o).isLink = true
    · rw [rootReads_of_link getdents state hfollow hprocess hlstat hlink]
      constructor
      · rintro ⟨⟨d, hstat, hdir⟩, rfl⟩
        exact ⟨⟨root, d, true⟩, o, ⟨hstat, hdir, o, hlstat, hlink⟩, rfl, rfl, rfl⟩
      · rintro ⟨s, o', hstop, rfl, ho, rfl⟩
        obtain rfl := Except.ok.inj ho
        exact ⟨⟨s.dir, hstop.stat_eq, hstop.isDir⟩, rfl⟩
    · have hlink' : (fs.node o).isLink = false := by simpa using hlink
      have hstat := stat_of_lstat hlstat hlink'
      rw [rootReads_of_not_link getdents state hfollow hprocess hlstat hlink']
      constructor
      · intro hspec
        split_ifs at hspec with hdir
        · exact ⟨⟨root, o, false⟩, o, ⟨hstat, hdir, o, hlstat, hlink'⟩, rfl, rfl,
            List.mem_singleton.mp hspec⟩
        · exact absurd hspec List.not_mem_nil
      · rintro ⟨s, o', hstop, rfl, ho, rfl⟩
        obtain rfl := Except.ok.inj ho
        have hdir : o = s.dir := Except.ok.inj (hstat.symm.trans hstop.stat_eq)
        simp [hdir, hstop.isDir]

omit hfollow hprocess [Inhabited E] in
/-- The read of the root. -/
theorem tracks_root (hlstat : fs.lstat root = .ok o) (hpath : s.path = root) :
    fs.Tracks (⟨0, root, state, some [⟨root, (fs.statx o).metaDataExt.identity⟩]⟩ : ReadDirSpec B)
      s [] := by
  refine ⟨hpath.symm, by simp, _, rfl, fun a => ?_⟩
  simp [hpath, fromPath_eq hlstat, eq_comm]

/-- **The chains of reads are the trails that are let pass.** -/
theorem exists_trail {chain : List (ReadDirSpec B)}
    (h : fs.ReadChain getdents opts root state (spec :: chain)) :
    ∃ s t, fs.Trail opts root Unnoticed (s :: t) ∧ fs.Tracks spec s t ∧
      (spec :: chain).map ReadDirSpec.path = (s :: t).map Stop.path := by
  generalize hl : spec :: chain = l at h
  induction h generalizing spec chain with
  | root hspec =>
    obtain ⟨rfl, rfl⟩ := List.cons.inj hl
    obtain ⟨s, o, hstop, hpath, hlstat, rfl⟩ :=
      (mem_rootReads getdents state hfollow hprocess).mp hspec
    exact ⟨s, [], .root hstop hpath, tracks_root state hlstat hpath, by simp [hpath]⟩
  | @child parent child l hparent hspawns ih =>
    obtain ⟨rfl, rfl⟩ := List.cons.inj hl
    obtain ⟨s, t, htrail, htracks, hpaths⟩ := ih rfl
    have hopens : Opens opts parent := by
      by_contra hnot
      exact not_spawns_of_maxDepth (Nat.lt_of_not_le hnot) hspawns
    obtain ⟨s', hleads, hunnoticed, htracks'⟩ :=
      htracks.of_spawns hfollow htrail.isStop hprocess hopens hspawns
    refine ⟨s', s :: t, htrail.step hleads hunnoticed, htracks', ?_⟩
    rw [List.map_cons, hpaths, htracks'.path_eq]
    rfl

/-- A trail that is let pass is read, as far as directories are opened. -/
theorem exists_readChain (h : fs.Trail opts root Unnoticed (s :: t))
    (hopens : opens opts t.length) :
    ∃ spec chain, fs.ReadChain getdents opts root state (spec :: chain) ∧ fs.Tracks spec s t ∧
      (spec :: chain).map ReadDirSpec.path = (s :: t).map Stop.path := by
  generalize hl : s :: t = l at h
  induction h generalizing s t with
  | root hstop hpath =>
    obtain ⟨rfl, rfl⟩ := List.cons.inj hl
    obtain ⟨o, hlstat, -⟩ := hstop.lstat_eq
    rw [hpath] at hlstat
    exact ⟨_, [], .root ((mem_rootReads getdents state hfollow hprocess).mpr
      ⟨s, o, hstop, hpath, hlstat, rfl⟩), tracks_root state hlstat hpath, by simp [hpath]⟩
  | @step s₁ s' t₁ htrail hleads hunnoticed ih =>
    obtain ⟨rfl, rfl⟩ := List.cons.inj hl
    have hopens₁ := opens_of_succ hopens
    obtain ⟨spec, chain, hchain, htracks, hpaths⟩ := ih hopens₁ rfl
    obtain ⟨child, hspawns, htracks'⟩ := htracks.exists_spawns hfollow htrail.isStop hprocess
      (htracks.opens_iff.mpr hopens₁) getdents hleads hunnoticed
    refine ⟨child, spec :: chain, hchain.child hspawns, htracks', ?_⟩
    rw [List.map_cons, hpaths, htracks'.path_eq]
    rfl

/-! ### When no directory is entered again -/

omit [Inhabited E] hfollow hprocess in
/-- On a guarded file system the trails that are let pass have distinct directories. -/
theorem Guarded.fresh (h : fs.Guarded opts root) (htrail : fs.Trail opts root Unnoticed (s :: t))
    (hopens : opens opts t.length) : fs.Trail opts root Fresh (s :: t) := by
  generalize hl : s :: t = l at htrail
  induction htrail generalizing s t with
  | root hstop hpath => exact .root hstop hpath
  | @step s₁ s' t₁ htrail hleads hunnoticed ih =>
    obtain ⟨rfl, rfl⟩ := List.cons.inj hl
    have hfresh := ih (opens_of_succ hopens) rfl
    refine hfresh.step hleads fun x hx hdir => ?_
    have hguard := h s₁ t₁ hfresh (opens_of_succ hopens) s hleads x hx hdir
    split_ifs at hguard with hvia
    · exact hunnoticed hvia x hx hguard hdir
    · exact hguard hopens

/-- The trail of a chain of reads on a guarded file system. -/
theorem Guarded.exists_trail (h : fs.Guarded opts root) {chain : List (ReadDirSpec B)}
    (hchain : fs.ReadChain getdents opts root state (spec :: chain)) (hopens : Opens opts spec) :
    ∃ s t, fs.Trail opts root Fresh (s :: t) ∧ opens opts t.length ∧ fs.Tracks spec s t ∧
      (spec :: chain).map ReadDirSpec.path = (s :: t).map Stop.path := by
  obtain ⟨s, t, htrail, htracks, hpaths⟩ :=
    FileSystem.exists_trail getdents state hfollow hprocess hchain
  have hopens' := htracks.opens_iff.mp hopens
  exact ⟨s, t, h.fresh htrail hopens', hopens', htracks, hpaths⟩

omit [Inhabited E] hfollow hprocess in
/-- What the reads of a chain open. -/
theorem map_stat {chain : List (ReadDirSpec B)} (hstops : ∀ x ∈ t, fs.IsStop x)
    (hpaths : chain.map ReadDirSpec.path = t.map Stop.path) :
    chain.map (fun spec => fs.stat spec.path) = t.map fun x => .ok x.dir := by
  have hstat : chain.map (fun spec => fs.stat spec.path) =
      (chain.map ReadDirSpec.path).map fs.stat := by
    rw [List.map_map]
    rfl
  rw [hstat, hpaths, List.map_map]
  exact List.map_congr_left fun x hx => (hstops x hx).stat_eq

omit [Inhabited E] hfollow hprocess in
/-- A directory that a read of the chain has opened is a stop. -/
theorem exists_stop_of_stat {chain : List (ReadDirSpec B)} (hstops : ∀ x ∈ t, fs.IsStop x)
    (hpaths : chain.map ReadDirSpec.path = t.map Stop.path)
    (h : ∃ x ∈ chain, fs.stat x.path = .ok d) : ∃ x ∈ t, x.dir = d := by
  obtain ⟨spec, hspec, hstat⟩ := h
  have hmem : Except.ok d ∈ chain.map fun spec => fs.stat spec.path :=
    List.mem_map.mpr ⟨spec, hspec, hstat⟩
  rw [map_stat hstops hpaths] at hmem
  obtain ⟨x, hx, hd⟩ := List.mem_map.mp hmem
  exact ⟨x, hx, Except.ok.inj hd⟩

/-- The reads of a chain on a guarded file system open distinct directories. -/
theorem Guarded.nodup (h : fs.Guarded opts root) {chain : List (ReadDirSpec B)}
    (hchain : fs.ReadChain getdents opts root state (spec :: chain)) (hopens : Opens opts spec) :
    ((spec :: chain).map fun spec => fs.stat spec.path).Nodup := by
  obtain ⟨s, t, htrail, -, -, hpaths⟩ :=
    h.exists_trail getdents state hfollow hprocess hchain hopens
  rw [map_stat htrail.isStop hpaths]
  have hmap : (s :: t).map (fun x => (.ok x.dir : Except IoError ι)) =
      ((s :: t).map Stop.dir).map .ok := by
    rw [List.map_map]
    rfl
  rw [hmap]
  exact htrail.nodup.map fun _ _ => Except.ok.inj

/-- A chain of reads on a guarded file system has no more reads than there are directories. -/
theorem Guarded.length_le [Finite ι] (h : fs.Guarded opts root) {chain : List (ReadDirSpec B)}
    (hchain : fs.ReadChain getdents opts root state (spec :: chain)) (hopens : Opens opts spec) :
    (spec :: chain).length ≤ Nat.card { d : ι // (fs.node d).isDir = true } ∧
      spec.depth < (spec :: chain).length := by
  obtain ⟨s, t, htrail, -, htracks, hpaths⟩ :=
    h.exists_trail getdents state hfollow hprocess hchain hopens
  have hlength : (spec :: chain).length = (s :: t).length := by
    simpa using congrArg List.length hpaths
  have hle := htrail.length_le
  have hdepth := htracks.depth_eq
  rw [hlength]
  refine ⟨hle, ?_⟩
  simp only [List.length_cons]
  omega

/-- The last read of a chain need not open its directory. -/
theorem Guarded.length_le_succ [Finite ι] (h : fs.Guarded opts root)
    (l : List (ReadDirSpec B)) (hchain : fs.ReadChain getdents opts root state l) :
    l.length ≤ Nat.card { d : ι // (fs.node d).isDir = true } + 1 := by
  cases hchain with
  | root hspec => simp
  | @child parent child l hparent hspawns =>
    have hopens : Opens opts parent := by
      by_contra hnot
      exact not_spawns_of_maxDepth (Nat.lt_of_not_le hnot) hspawns
    have := (h.length_le getdents state hfollow hprocess hparent hopens).1
    rw [List.length_cons]
    omega

omit [Inhabited E] hprocess in
/-- Links that lead back to a stop are found among the ancestors on a guarded file system. -/
theorem Guarded.findLoop (h : fs.Guarded opts root) (htrail : fs.Trail opts root Fresh (s :: t))
    (hopens : opens opts t.length) (htracks : fs.Tracks spec s t) {e : OsString × ι}
    (he : e ∈ (fs.node s.dir).entries) (hvisible : visible opts e = true)
    (hlink : (fs.node e.2).isLink = true) (hstat : fs.stat (s.path.join e.1) = .ok d')
    (hback : ∃ x ∈ s :: t, x.dir = d') :
    ∃ ancestor, DirEntry.findLoop
      (readRequest fs.systemCalls opts spec none).followLinkAncestors (fs.statx d').metaDataExt =
        some ancestor := by
  obtain ⟨x, hx, rfl⟩ := hback
  have hstop := htrail.isStop s List.mem_cons_self
  have hdir := (htrail.isStop x hx).isDir
  have hvia : x.viaLink = false := by
    have hguard := h s t htrail hopens ⟨s.path.join e.1, x.dir, true⟩
      ⟨⟨hstat, hdir, e.2, lstat_entry hstop.stat_eq he, hlink⟩, e, he, hvisible, rfl⟩ x hx rfl
    simpa using hguard
  obtain ⟨ancestors, hancestors, hmem⟩ := htracks.ancestors
  have hreq : (readRequest fs.systemCalls opts spec none).followLinkAncestors = some ancestors := by
    rw [readRequest, hfollow, hancestors]
  rw [hreq]
  refine Option.ne_none_iff_exists'.mp fun hnone => ?_
  exact (findLoop_eq_none_iff htrail.isStop hmem hdir).mp hnone x hx hvia rfl

omit hprocess in
/-- The result for a link that is found among the ancestors. -/
theorem EntryResult.loop {req : ReadRequest B} {e : OsString × ι}
    {result : Except Error (DirEntry E)} {ancestor : AncestorIdentity}
    (h : fs.EntryResult opts req e result) (hstat : fs.stat req.path = .ok d)
    (he : e ∈ (fs.node d).entries) (hlink : (fs.node e.2).isLink = true)
    (hstat' : fs.stat (req.path.join e.1) = .ok d') (hdir : (fs.node d').isDir = true)
    (hloop : DirEntry.findLoop req.followLinkAncestors (fs.statx d').metaDataExt =
      some ancestor) :
    result = .error (Error.fromLoop req.readDirContentsDepth ancestor.path
      (req.path.join e.1)) := by
  obtain ⟨metadata, metadataExt, fileType, -, hsymlink, rfl⟩ := h
  obtain ⟨-, m, hresolve⟩ := stat_eq_ok_iff.mp hstat
  obtain ⟨target, htarget⟩ : ∃ target, fs.node e.2 = .link target := by
    cases hnode : fs.node e.2 with
    | link target => exact ⟨target, rfl⟩
    | _ => simp [hnode, Node.isLink] at hlink
  have hfollowed := followSymlink_of_findLoop (E := E) (e := .fromRaw req.readDirContentsDepth
    req.path metadata metadataExt e.1 fileType req.followLinkAncestors) (fs.validName d e he)
    hresolve (lookup_of_mem he) htarget hstat' hdir hloop
  have htype : (opts.followLinks && (DirEntry.fromRaw (E := E) req.readDirContentsDepth req.path
      metadata metadataExt e.1 fileType req.followLinkAncestors).fileType.isSymlink) = true := by
    rw [hfollow, Bool.true_and]
    exact hsymlink.trans hlink
  rw [processDirEntryResult_of_link _ htype, hfollowed]
  rfl

omit hprocess hfollow in
/-- Entries of one directory have distinct paths. -/
theorem eq_of_join_eq {path : Path} {e e' : OsString × ι} (he : e ∈ (fs.node d).entries)
    (he' : e' ∈ (fs.node d).entries) (h : path.join e.1 = path.join e'.1) : e = e' := by
  have hname : e.1 = e'.1 := by
    have hcomponents := congrArg Path.components h
    rw [(fs.validName _ _ he).components_join, (fs.validName _ _ he').components_join]
      at hcomponents
    simpa using hcomponents
  refine Prod.ext hname ?_
  have hlookup := lookup_of_mem he
  rw [hname, lookup_of_mem he'] at hlookup
  exact (Except.ok.inj hlookup).symm

/-- A link to a directory of the chain, on a guarded file system. -/
theorem Guarded.loop (h : fs.Guarded opts root) {chain : List (ReadDirSpec B)}
    (hchain : fs.ReadChain getdents opts root state (spec :: chain)) (hopens : Opens opts spec)
    (hstat : fs.stat spec.path = .ok d) {e : OsString × ι} (he : e ∈ (fs.node d).entries)
    (hvisible : visible opts e = true) (hlink : (fs.node e.2).isLink = true)
    (hstat' : fs.stat (spec.path.join e.1) = .ok d')
    (hback : ∃ x ∈ spec :: chain, fs.stat x.path = .ok d') :
    (∀ ctx result,
      MayReturn (coreReadDirCallback (E := E) (fs.host getdents) opts spec ctx) result →
      ∃ readDir ancestor, result = .ok readDir ∧ .error (Error.fromLoop
        (saturatingAdd spec.depth 1) ancestor (spec.path.join e.1)) ∈ readDir.resultsList) ∧
    ∀ child, (coreReadDirCallback (E := E) (fs.host getdents) opts).Spawns spec child →
      child.path ≠ spec.path.join e.1 := by
  obtain ⟨s, t, htrail, hopens', htracks, hpaths⟩ :=
    h.exists_trail getdents state hfollow hprocess hchain hopens
  have hstop := htrail.isStop s List.mem_cons_self
  obtain rfl : s.dir = d := by
    rw [htracks.path_eq, hstop.stat_eq] at hstat
    exact Except.ok.inj hstat
  obtain ⟨x, hx, rfl⟩ := exists_stop_of_stat htrail.isStop hpaths hback
  have hdir := (htrail.isStop x hx).isDir
  have hjoin : spec.path.join e.1 = s.path.join e.1 := by rw [htracks.path_eq]
  obtain ⟨ancestor, hloop⟩ := h.findLoop hfollow htrail hopens' htracks he hvisible hlink
    (hjoin ▸ hstat') ⟨x, hx, rfl⟩
  refine ⟨fun ctx result hresult => ?_, fun child hchild hpath => ?_⟩
  · obtain ⟨count, results, hresults, rfl⟩ := (readOf_callback getdents hprocess hopens
      (openDir_of_stat hstat hstop.isDir) ctx).returns result hresult
    refine ⟨_, ancestor.path, rfl, ?_⟩
    have hentry := (hresults e he).loop hfollow hstat he hlink hstat' hdir hloop
    have hmem : results e ∈ ((fs.node s.dir).entries.filter (visible opts)).map results :=
      List.mem_map_of_mem (List.mem_filter.mpr ⟨he, hvisible⟩)
    rw [hentry] at hmem
    exact (finishReadDir_perm hprocess _ _ _).mem_iff.mpr hmem
  · obtain ⟨e', he', hasks, rfl⟩ :=
      (htracks.mem_spawns htrail.isStop hprocess hopens getdents).mp hchild
    obtain rfl : e' = e := eq_of_join_eq he' he hpath
    have hnotdir : (fs.node e'.2).isDir = false := by
      by_contra hdir'
      simp [Node.isLink_of_isDir (by simpa using hdir')] at hlink
    obtain ⟨-, m, hresolve⟩ := stat_eq_ok_iff.mp hstat
    simp only [asks, hvisible, hnotdir, hfollow, hlink, Bool.true_and, Bool.false_or] at hasks
    obtain ⟨d', hstat'', -, hnone⟩ := (leadsToDirectory_iff (fs.validName _ _ he) hresolve
      (lookup_of_mem he) hlink).mp hasks
    obtain rfl : x.dir = d' := Except.ok.inj (hstat'.symm.trans hstat'')
    rw [hloop] at hnone
    cases hnone

/-- **On a guarded file system no directory is entered again.** -/
theorem Guarded.neverReenters [Finite ι] (h : fs.Guarded opts root) :
    fs.NeverReenters getdents opts root state := by
  have hbound := h.length_le_succ getdents state hfollow hprocess
  refine ⟨fun spec chain hchain hopens => ?_, ?_, ?_, fun spec chain hchain hopens => ?_,
    fun minDepth => ?_, ?_⟩
  · exact h.nodup getdents state hfollow hprocess hchain hopens
  · intro spec chain hchain hopens d d' hstat e he hvisible hlink hstat' hback
    exact (h.loop getdents state hfollow hprocess hchain hopens hstat he hvisible hlink hstat'
      hback).1
  · intro spec chain hchain hopens d d' hstat e he hvisible hlink hstat' hback
    exact (h.loop getdents state hfollow hprocess hchain hopens hstat he hvisible hlink hstat'
      hback).2
  · obtain ⟨hlength, hdepth⟩ := h.length_le getdents state hfollow hprocess hchain hopens
    exact hdepth.trans_le hlength
  · have hshallow : (serialWalk (rootEntryResults (fs.host getdents) opts root state)
        minDepth).StackShallow (coreReadDirCallback (fs.host getdents) opts)
          (Nat.card { d : ι // (fs.node d).isDir = true } + 1) := by
      intro spec hspec
      have hroot : fs.ReadChain getdents opts root state [spec] :=
        .root (List.mem_reverse.mp hspec)
      exact hroot.shallow (fun _ _ => ReadDirCallback.spawns_of_mem) hbound
    obtain ⟨k, hk⟩ := hshallow.exists_finished
    exact ⟨_, k, hk, rfl⟩
  · refine ⟨_, fun N capacity hcapacity sendsMayFail maxReceiveBufferSize st hreaches =>
      RunState.length_taken_le hbound (fun spec chain hchain => ?_) hreaches⟩
    obtain ⟨s, t, htrail, htracks, -⟩ :=
      FileSystem.exists_trail getdents state hfollow hprocess hchain
    have hstop := htrail.isStop s List.mem_cons_self
    refine frugal hprocess (d := s.dir) ?_
    rw [htracks.path_eq]
    exact openDir_of_stat hstop.stat_eq hstop.isDir

/-- A file system on which no directory is entered again is guarded. -/
theorem NeverReenters.guarded (h : fs.NeverReenters getdents opts root state) :
    fs.Guarded opts root := by
  intro s t htrail hopens s' hleads x hx hdir
  have hstop := htrail.isStop s List.mem_cons_self
  obtain ⟨spec, chain, hchain, htracks, hpaths⟩ :=
    exists_readChain getdents state hfollow hprocess htrail.unnoticed hopens
  have hopens' : Opens opts spec := htracks.opens_iff.mpr hopens
  split_ifs with hvia
  · -- a link to a directory that was entered through a link would be descended
    by_contra hlinked
    have hunnoticed : Unnoticed (s :: t) s' := by
      rintro - y hy hy' hdir'
      rw [htrail.eq_of_dir hx hy (hdir.trans hdir'.symm)] at hlinked
      exact hlinked hy'
    obtain ⟨child, hspawns, htracks'⟩ := htracks.exists_spawns hfollow htrail.isStop hprocess
      hopens' getdents hleads hunnoticed
    obtain ⟨hstop', e, he, hvisible, hpath⟩ := hleads
    obtain ⟨o, hlstat, hlink⟩ := hstop'.lstat_eq
    rw [hpath, lstat_entry hstop.stat_eq he] at hlstat
    obtain rfl := Except.ok.inj hlstat
    have hpath' : s'.path = spec.path.join e.1 := by rw [hpath, htracks.path_eq]
    refine h.not_descended spec chain hchain hopens' s.dir s'.dir ?_ e he hvisible
      (hlink.trans hvia) (hpath' ▸ hstop'.stat_eq) ?_ child hspawns (htracks'.path_eq.trans hpath')
    · rw [htracks.path_eq, hstop.stat_eq]
    · have hmem : Except.ok x.dir ∈ (spec :: chain).map fun spec => fs.stat spec.path := by
        rw [map_stat htrail.isStop hpaths]
        exact List.mem_map_of_mem hx
      obtain ⟨y, hy, hstat⟩ := List.mem_map.mp hmem
      exact ⟨y, hy, hstat.trans (congrArg _ hdir)⟩
  · -- a directory is not compared with anything
    intro hopens₁
    have hunnoticed : Unnoticed (s :: t) s' := fun hvia' => absurd hvia' hvia
    obtain ⟨spec', chain', hchain', htracks', hpaths'⟩ := exists_readChain getdents state hfollow
      hprocess (htrail.unnoticed.step hleads hunnoticed) hopens₁
    have hnodup := h.nodup spec' chain' hchain' (htracks'.opens_iff.mpr hopens₁)
    rw [map_stat (htrail.unnoticed.step hleads hunnoticed).isStop hpaths', List.map_cons,
      List.nodup_cons] at hnodup
    exact hnodup.1 (List.mem_map.mpr ⟨x, hx, congrArg _ hdir⟩)

end Root

/-- **When a walk that follows links never enters a directory again.** For every finite file system,
on Linux and elsewhere, for every root and all options without a client callback. -/
theorem neverReenters_iff [Finite ι] (fs : FileSystem ι) (getdents : Bool)
    (opts : WalkDirOptions B E) (hfollow : opts.followLinks = true)
    (hprocess : opts.processReadDir = none) (root : Path) (state : B) :
    fs.NeverReenters getdents opts root state ↔ fs.Guarded opts root :=
  ⟨fun h => h.guarded getdents state hfollow hprocess,
    fun h => h.neverReenters getdents state hfollow hprocess⟩

end Walk

/-! ### A directory that is entered through a link -/

/-- What `statx` reports about an object with a mode and a number. -/
def statxOf (mode : UInt32) (ino : UInt64) : Statx where
  stxMask := 0
  stxMode := mode.toUInt16
  stxSize := 0
  stxBtime := ⟨0, 0⟩
  stxCtime := ⟨0, 0⟩
  stxMtime := ⟨0, 0⟩
  stxAtime := ⟨0, 0⟩
  stxIno := ino
  stxDevMajor := 0
  stxDevMinor := 1
  stxNlink := 1
  stxBlksize := 4096
  stxBlocks := 0
  stxUid := 0
  stxGid := 0
  stxRdevMajor := 0
  stxRdevMinor := 0

/-- The objects below: the root with the directories `r` and `x`, a link `a` in `r` that leads to
`x`, and a link `b` in `x` that leads to `x`. -/
def linkedNode : Fin 5 → Node (Fin 5)
  | 0 => .dir [([114], 1), ([120], 2)]
  | 1 => .dir [([97], 3)]
  | 2 => .dir [([98], 4)]
  | 3 => .link ⟨[.rootDir, .normal [120]]⟩
  | 4 => .link ⟨[.rootDir, .normal [120]]⟩

/-- The file system of these objects. -/
def linkedFs : FileSystem (Fin 5) where
  node := linkedNode
  statx := fun o => statxOf (if (linkedNode o).isDir then S_IFDIR else S_IFLNK) o.val.toUInt64
  dType := fun o => if (linkedNode o).isDir then DT_DIR else DT_LNK
  root := 0
  cwd := 0
  parent := fun _ => 0
  address := fun o => if o = 1 then [[114]] else if o = 2 then [[120]] else []
  maxLinks := 40
  batched := fun _ => false
  isDir_mode := by decide
  isSymlink_mode := by decide
  dType_known := by decide
  identity_injective := by
    intro a b
    revert a b
    decide
  isDir_root := rfl
  isDir_cwd := rfl
  isDir_parent := by decide
  parent_root := rfl
  ne_root := by decide
  parent_eq := by decide
  name_eq := by decide
  descend_address := by decide
  validName := by decide
  nodup_names := by decide
  target_ne := by
    intro o target h
    match o with
    | 0 | 1 | 2 => cases h
    | 3 | 4 =>
      cases h
      exact List.cons_ne_nil _ _

/-- The statement above for the root `/x`, which was not entered through a link: the link `b` is
found to be a loop. -/
theorem neverReenters_linked_directory :
    linkedFs.NeverReenters (E := Unit) true followOptions ⟨[.rootDir, .normal [120]]⟩ () := by
  refine (neverReenters_iff linkedFs true followOptions rfl rfl ⟨[.rootDir, .normal [120]]⟩ ()).mpr
    ?_
  have hstop (s : Stop (Fin 5)) (hstop : linkedFs.IsStop s)
      (hpath : s.path = ⟨[.rootDir, .normal [120]]⟩) :
      s = ⟨⟨[.rootDir, .normal [120]]⟩, 2, false⟩ := by
    obtain ⟨path, dir, viaLink⟩ := s
    subst hpath
    obtain ⟨o, hlstat, hlink⟩ := hstop.lstat_eq
    obtain rfl : 2 = dir := Except.ok.inj hstop.stat_eq
    obtain rfl : 2 = o := Except.ok.inj hlstat
    obtain rfl : false = viaLink := hlink
    rfl
  have hleads (s s' : Stop (Fin 5)) (hs : s = ⟨⟨[.rootDir, .normal [120]]⟩, 2, false⟩)
      (h : linkedFs.LeadsTo followOptions s s') : s'.dir = 2 ∧ s'.viaLink = true := by
    obtain ⟨hstop', e, he, -, hpath⟩ := h
    obtain ⟨path, dir, viaLink⟩ := s'
    subst hs
    obtain rfl : e = ([98], 4) := List.mem_singleton.mp he
    subst hpath
    obtain ⟨o, hlstat, hlink⟩ := hstop'.lstat_eq
    obtain rfl : 2 = dir := Except.ok.inj hstop'.stat_eq
    obtain rfl : 4 = o := Except.ok.inj hlstat
    exact ⟨rfl, hlink.symm⟩
  -- the root is the only stop of a trail of distinct directories
  have htrail (l : List (Stop (Fin 5)))
      (h : linkedFs.Trail followOptions ⟨[.rootDir, .normal [120]]⟩ Fresh l) :
      l = [⟨⟨[.rootDir, .normal [120]]⟩, 2, false⟩] := by
    induction h with
    | root hs hpath => rw [hstop _ hs hpath]
    | @step s s' t _ hs' hfresh ih =>
      obtain ⟨rfl, rfl⟩ := List.cons.inj ih
      exact absurd (hleads _ _ rfl hs').1.symm (hfresh _ List.mem_cons_self)
  intro s t h _ s' hs' x hx _
  obtain ⟨rfl, rfl⟩ := List.cons.inj (htrail _ h)
  rw [(hleads _ _ rfl hs').2, if_pos rfl, List.mem_singleton.mp hx]

/-- With the root `/r`, the directory `x` is entered through the link `a`, and then again through
the link `b` that it holds. -/
theorem not_neverReenters_linked_twice :
    ¬ linkedFs.NeverReenters (E := Unit) true followOptions ⟨[.rootDir, .normal [114]]⟩ () := by
  intro h
  have hchain : linkedFs.ReadChain (E := Unit) true followOptions ⟨[.rootDir, .normal [114]]⟩ ()
      [⟨2, ⟨[.rootDir, .normal [114], .normal [97], .normal [98]]⟩, (),
          some [⟨⟨[.rootDir, .normal [114]]⟩, .unix 1 1⟩, ⟨⟨[.rootDir, .normal [114]]⟩, .unix 1 1⟩,
            ⟨⟨[.rootDir, .normal [114], .normal [97]]⟩, .unix 1 3⟩]⟩,
        ⟨1, ⟨[.rootDir, .normal [114], .normal [97]]⟩, (),
          some [⟨⟨[.rootDir, .normal [114]]⟩, .unix 1 1⟩,
            ⟨⟨[.rootDir, .normal [114]]⟩, .unix 1 1⟩]⟩,
        ⟨0, ⟨[.rootDir, .normal [114]]⟩, (), some [⟨⟨[.rootDir, .normal [114]]⟩, .unix 1 1⟩]⟩] :=
    .child (.child (.root (by decide +kernel))
      (ReadDirCallback.spawns_of_mem (by decide +kernel)))
      (ReadDirCallback.spawns_of_mem (by decide +kernel))
  have hnodup := h.nodup _ _ hchain (by unfold Opens; decide)
  exact (List.nodup_cons.mp hnodup).1 (List.mem_cons.mpr (Or.inl rfl))

end FileSystem

end JwalkMeta
