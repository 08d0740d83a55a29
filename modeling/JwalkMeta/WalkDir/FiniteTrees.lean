import JwalkMeta.Lib.Rooted
import JwalkMeta.WalkDir.Coverage
import JwalkMeta.WalkDir.Room

/-!
# Walks of finite file systems

A walk that follows links can enter a directory again: the detection of loops does not know the
directories that were entered through links. It ends nevertheless. The path of a directory spells
the way that the walk has come, so every link on the way is a link that the operating system has to
follow when the directory is opened, and it follows a bounded number of them. Between two links the
walk goes down the tree of directories, which is finite.

Source: `src/lib.rs`, `src/core/dir_entry.rs`, `src/core/dir_entry_iter.rs`.

## Main results

* `FileSystem.exists_rooted`: every directory lies a number of levels below the root.
* `FileSystem.shallow_host`: how many reads there are on the way down from a directory.
* `FileSystem.exists_completes`: every serial walk of a finite file system comes to its end.
-/

namespace JwalkMeta

open Interaction

namespace FileSystem

variable {ι B E : Type} {fs : FileSystem ι} {d o : ι} {m n : ℕ}

/-! ### The tree of directories -/

/-- From a directory the parents lead back the way that its name leads down. -/
theorem iterate_parent_of_descend {names : List OsString}
    (h : descend fs.node d names = some o) (hdir : (fs.node o).isDir = true) :
    fs.parent^[names.length] o = d := by
  induction names generalizing d with
  | nil => exact (Option.some.inj h).symm
  | cons name names ih =>
    obtain ⟨o', hlookup, hrest⟩ := Option.bind_eq_some_iff.mp h
    have hmem := mem_of_lookup_entries hlookup
    -- the next object is a directory, since the way goes on there or ends there
    have hdir' : (fs.node o').isDir = true := by
      cases names with
      | nil => rwa [Option.some.inj hrest]
      | cons name' names =>
        obtain ⟨_, hlookup', -⟩ := Option.bind_eq_some_iff.mp hrest
        exact Node.isDir_of_mem (mem_of_lookup_entries hlookup')
    rw [List.length_cons, Function.iterate_succ_apply', ih hrest]
    exact fs.parent_eq d _ hmem hdir'

/-- **Every directory lies a number of levels below the root.** -/
theorem exists_rooted (fs : FileSystem ι) (hdir : (fs.node d).isDir = true) :
    ∃ n, Rooted fs.parent fs.root n d :=
  Rooted.exists_of_iterate
    (iterate_parent_of_descend (fs.descend_address d (Node.isLink_of_isDir hdir)) hdir)

/-! ### The way down -/

/-- A directory that is opened by its path: the links that could still be followed, and the level
of the directory. -/
structure OpensAt (fs : FileSystem ι) (path : Path) (d : ι) (m n : ℕ) : Prop where
  openDir_eq : fs.openDir path = .ok d
  resolve_eq : fs.resolve fs.maxLinks fs.cwd path.components = .ok (d, m)
  rooted : Rooted fs.parent fs.root n d

theorem exists_opensAt {path : Path} (h : fs.openDir path = .ok d) :
    ∃ m n, fs.OpensAt path d m n := by
  obtain ⟨-, m, hresolve⟩ := stat_eq_ok_iff.mp (stat_of_openDir h)
  obtain ⟨n, hn⟩ := fs.exists_rooted (isDir_of_openDir h)
  exact ⟨m, n, h, hresolve, hn⟩

/-- **Going down uses up links or levels.** A directory that is opened as an entry of another one
lies below it, or the operating system follows one more link on the way to it. -/
theorem OpensAt.join {path : Path} (h : fs.OpensAt path d m n) {e : OsString × ι}
    (he : e ∈ (fs.node d).entries) {d' : ι} (hopen : fs.openDir (path.join e.1) = .ok d') :
    ∃ m' n', fs.OpensAt (path.join e.1) d' m' n' ∧ (m' = m ∧ n' = n + 1 ∨ m' < m) := by
  obtain ⟨m', n', hopens⟩ := exists_opensAt hopen
  have hresolve := hopens.resolve_eq
  have hlookup : fs.lookup d (.normal e.1) = .ok e.2 := lookup_of_mem he
  rw [(fs.validName d e he).components_join, resolve_append, h.resolve_eq] at hresolve
  change fs.resolve m d [.normal e.1] = .ok (d', m') at hresolve
  cases hnode : fs.node e.2 with
  | link target =>
    refine ⟨m', n', hopens, .inr ?_⟩
    cases m with
    | zero =>
      rw [resolve_zero_of_link hlookup hnode] at hresolve
      cases hresolve
    | succ k =>
      rw [resolve_cons_of_link hlookup hnode] at hresolve
      exact Nat.lt_succ_of_le (le_of_resolve hresolve)
  | dir _ | other =>
    have hlink : (fs.node e.2).isLink = false := by simp [hnode, Node.isLink]
    rw [resolve_cons_of_not_link hlookup hlink, resolve_nil] at hresolve
    obtain ⟨rfl, rfl⟩ := Prod.mk.inj (Except.ok.inj hresolve)
    have hparent := fs.parent_eq d e he (isDir_of_openDir hopen)
    exact ⟨m, n + 1, ⟨hopen, hopens.resolve_eq, (hparent ▸ h.rooted).child (fs.ne_root d e he)⟩,
      .inl ⟨rfl, rfl⟩⟩

/-! ### Reads -/

section Reads

variable [Inhabited E] {getdents : Bool} {opts : WalkDirOptions B E} {spec child : ReadDirSpec B}
  (hprocess : opts.processReadDir = none)

include hprocess

/-- A read leads to reads of entries of its directory. -/
theorem exists_entry_of_mem_children
    (h : child ∈ (coreReadDirCallback (E := E) (fs.host getdents) opts).children spec) :
    ∃ d, fs.openDir spec.path = .ok d ∧
      ∃ e ∈ (fs.node d).entries, child.path = spec.path.join e.1 := by
  obtain ⟨readDir, e, hread, hmem, hspec⟩ := exists_entry_of_mem_childSpecs h
  obtain ⟨path, hpath, rfl⟩ := Option.map_eq_some_iff.mp hspec
  rcases listing_of_read hread with hempty | ⟨attempt, results, hlisting, rfl⟩
  · rw [hempty] at hmem
    exact absurd hmem List.not_mem_nil
  · have hentry := (finishReadDir_perm hprocess _ _ _).mem_iff.mp hmem
    rcases entered_of_mem_rawListing hlisting hentry with ⟨entry, hentered, hresult⟩ |
      ⟨_, _, herr, -⟩
    · have hchild : path = entry.path :=
        ((of_processDirEntryResult_ok hresult.symm).2.2.2 path hpath).elim id
          (hentered.readChildrenPath path)
      have hname : entry.fileName ∈ (fs.host getdents).names spec.path attempt :=
        hentered.fileName_mem
      cases hd : fs.openDir spec.path with
      | error err =>
        rw [names_of_openDir_error getdents hd] at hname
        exact absurd hname List.not_mem_nil
      | ok d =>
        rw [names_of_openDir getdents hd] at hname
        obtain ⟨e', he', hfst⟩ := List.mem_map.mp hname
        refine ⟨d, rfl, e', he', ?_⟩
        rw [hfst]
        exact hchild.trans hentered.path_eq
    · cases herr

/-- A directory that cannot be opened leads to no reads. -/
theorem children_of_openDir_error {err : IoError} (hd : fs.openDir spec.path = .error err) :
    (coreReadDirCallback (E := E) (fs.host getdents) opts).children spec = [] := by
  refine List.eq_nil_iff_forall_not_mem.mpr fun child hchild => ?_
  obtain ⟨d, hopen, -⟩ := exists_entry_of_mem_children hprocess hchild
  rw [hd] at hopen
  cases hopen

/-- **How many reads there are on the way down** from a directory: for each link that can still be
followed, no more than there are objects, and as many as there are levels below the directory. -/
theorem shallow_host [Finite ι] (height : ℕ) (h : fs.OpensAt spec.path d m n)
    (hheight : m * Nat.card ι + (Nat.card ι - n) < height) :
    Lineage.Shallow (coreReadDirCallback (E := E) (fs.host getdents) opts).children height
      spec := by
  induction height generalizing spec d m n with
  | zero => exact absurd hheight (Nat.not_lt_zero _)
  | succ height ih =>
    have hlevel := h.rooted.lt_card
    intro child hchild
    obtain ⟨d', hopen, e, he, hpath⟩ := exists_entry_of_mem_children hprocess hchild
    obtain rfl : d' = d := Except.ok.inj (hopen.symm.trans h.openDir_eq)
    cases hd : fs.openDir child.path with
    | error err =>
      -- there is room for one more read, which opens nothing
      obtain ⟨height, rfl⟩ := Nat.exists_eq_add_one_of_ne_zero (by omega : height ≠ 0)
      intro grandchild hgrandchild
      rw [children_of_openDir_error hprocess hd] at hgrandchild
      exact absurd hgrandchild List.not_mem_nil
    | ok d'' =>
      rw [hpath] at hd
      obtain ⟨m', n', hopens, hdown⟩ := h.join he hd
      refine ih (hpath ▸ hopens) ?_
      rcases hdown with ⟨rfl, rfl⟩ | hlt
      · have := hopens.rooted.lt_card
        omega
      · -- a link less makes room for all levels
        have hlinks : m' * Nat.card ι + Nat.card ι ≤ m * Nat.card ι := by
          rw [← Nat.succ_mul]
          exact Nat.mul_le_mul_right _ hlt
        omega

/-- The reads of a walk are shallow. -/
theorem shallow_of_finite [Finite ι] (spec : ReadDirSpec B) :
    Lineage.Shallow (coreReadDirCallback (E := E) (fs.host getdents) opts).children
      ((fs.maxLinks + 1) * Nat.card ι + 1) spec := by
  cases hd : fs.openDir spec.path with
  | error err =>
    intro child hchild
    rw [children_of_openDir_error hprocess hd] at hchild
    exact absurd hchild List.not_mem_nil
  | ok d =>
    obtain ⟨m, n, hopens⟩ := exists_opensAt hd
    have hlinks : m * Nat.card ι ≤ fs.maxLinks * Nat.card ι :=
      Nat.mul_le_mul_right _ (le_of_resolve hopens.resolve_eq)
    refine shallow_host hprocess _ hopens ?_
    rw [Nat.succ_mul]
    omega

end Reads

end FileSystem

/-! ### Walks -/

section Walks

variable {B E : Type} {callback : ReadDirCallback B E} {state : B}
  {results : List (Except Error (DirEntry E))} {forest : Forest (Visit E)}

/-- Where no line of reads is long, no entry lies deep. -/
theorem Unfolds.depth_le (h : Unfolds callback.read state results forest)
    (hread : ∀ spec readDir, callback.read spec = .ok readDir →
      ∀ e, .ok e ∈ readDir.resultsList → e.depth ≤ spec.depth + 1)
    {depth height : ℕ} (hdepth : ∀ e, .ok e ∈ results → e.depth ≤ depth)
    (hshallow : ∀ spec ∈ results.filterMap (ReadDir.childSpec state),
      Lineage.Shallow callback.children height spec) :
    ∀ visit ∈ forest.labels, ∀ e, visit.item = .ok e → e.depth ≤ depth + height := by
  induction h generalizing depth height with
  | nil => exact fun visit hvisit => absurd hvisit List.not_mem_nil
  | error hrest ih =>
    rw [Forest.labels_node]
    refine List.forall_mem_cons.mpr ⟨fun e he => ?_, ?_⟩
    · cases he
    · exact ih (fun e he => hdepth e (List.mem_cons_of_mem _ he)) hshallow
  | @entry state dirEntry rest forest hspec hrest ih =>
    rw [filterMap_childSpec_of_none hspec] at hshallow
    have hfirst := hdepth dirEntry List.mem_cons_self
    rw [Forest.labels_node]
    refine List.forall_mem_cons.mpr ⟨fun e he => ?_, ?_⟩
    · obtain rfl := Except.ok.inj he
      omega
    · exact ih (fun e he => hdepth e (List.mem_cons_of_mem _ he)) hshallow
  | @failed state dirEntry spec err rest forest hspec hfailed hrest ih =>
    rw [filterMap_childSpec_of_some hspec] at hshallow
    have hfirst := hdepth dirEntry List.mem_cons_self
    rw [Forest.labels_node]
    refine List.forall_mem_cons.mpr ⟨fun e he => ?_, ?_⟩
    · obtain rfl := Except.ok.inj he
      exact hfirst.trans (Nat.le_add_right _ _)
    · exact ih (fun e he => hdepth e (List.mem_cons_of_mem _ he))
        (List.forall_mem_cons.mp hshallow).2
  | @listed state dirEntry spec readDir rest below forest hspec hok hdir hrest ihdir ihrest =>
    rw [filterMap_childSpec_of_some hspec] at hshallow
    obtain ⟨hspecShallow, hrestShallow⟩ := List.forall_mem_cons.mp hshallow
    have hfirst := hdepth dirEntry List.mem_cons_self
    rw [Forest.labels_node]
    refine List.forall_mem_cons.mpr ⟨fun e he => ?_, fun visit hvisit => ?_⟩
    · obtain rfl := Except.ok.inj he
      omega
    · rcases List.mem_append.mp hvisit with hbelow | hafter
      · -- the results of the directory lie one deeper, and one read fewer is left for them
        cases height with
        | zero => exact hspecShallow.elim
        | succ height =>
          have hspecDepth : spec.depth = dirEntry.depth := by
            obtain ⟨path, -, rfl⟩ := Option.map_eq_some_iff.mp hspec
            rfl
          have hbelowDepth (e : DirEntry E) (he : .ok e ∈ readDir.resultsList) :
              e.depth ≤ depth + 1 := (hread spec readDir hok e he).trans (by omega)
          have hbelowShallow : ∀ child ∈ readDir.resultsList.filterMap
              (ReadDir.childSpec readDir.readDirState),
              Lineage.Shallow callback.children height child :=
            fun child hchild => hspecShallow child (children_of_ok hok ▸ hchild)
          intro e he
          have hle := ihdir hbelowDepth hbelowShallow visit hbelow e he
          omega
      · exact ihrest (fun e he => hdepth e (List.mem_cons_of_mem _ he)) hrestShallow visit hafter

/-- **Every serial walk of a finite file system comes to its end**, on Linux and elsewhere, with any
options without a client's callback; a parallel walk yields the same items if it comes to its end.
This includes the walks that follow links, although they can enter a directory again: the operating
system follows no more than `maxLinks` links in a path. No entry lies deeper than there are objects
for each of these links and for the root. -/
theorem FileSystem.exists_completes {ι : Type} [Finite ι] [Inhabited E] (fs : FileSystem ι)
    (getdents : Bool) (opts : WalkDirOptions B E) (hprocess : opts.processReadDir = none)
    (root : Path) (state : B) (minDepth : ℕ) :
    ∃ items, CompletesOnly (fs.host getdents) opts root state minDepth items ∧
      ∀ e, .ok e ∈ items → e.depth ≤ (fs.maxLinks + 1) * Nat.card ι + 1 := by
  have hkeeps : ∀ process ∈ opts.processReadDir, KeepsDepths process := by simp [hprocess]
  have hroots : (rootSpecs (rootEntryResults (fs.host getdents) opts root state)).length ≤ 1 :=
    length_rootSpecs_le hprocess
  have hshallow : ∀ spec ∈ (rootEntryResults (fs.host getdents) opts root state).2.filterMap
      (ReadDir.childSpec (rootEntryResults (fs.host getdents) opts root state).1),
      Lineage.Shallow (coreReadDirCallback (E := E) (fs.host getdents) opts).children
        ((fs.maxLinks + 1) * Nat.card ι + 1) spec :=
    fun spec _ => FileSystem.shallow_of_finite hprocess spec
  obtain ⟨items, reads, hwalk⟩ := exists_depthFirst minDepth _ _ hshallow
  obtain ⟨forest, hforest, rfl⟩ := hwalk.exists_unfolds
  refine ⟨_, completesOnly_of_unfolds hroots hforest minDepth, fun e he => ?_⟩
  obtain ⟨visit, hvisit, hemit⟩ := List.mem_filterMap.mp he
  have hitem : visit.item = .ok e := by
    simp only [Visit.emit] at hemit
    split at hemit
    · cases hemit
    · rename_i hok
      split_ifs at hemit
      rw [hok, Option.some.inj hemit]
  have hroot (e : DirEntry E)
      (he : .ok e ∈ (rootEntryResults (fs.host getdents) opts root state).2) : e.depth ≤ 0 :=
    (atDepth_rootEntryResults hkeeps (.ok e) he).1.le
  have hread (spec : ReadDirSpec B) (readDir : ReadDir B E)
      (hok : (coreReadDirCallback (fs.host getdents) opts).read spec = .ok readDir)
      (e : DirEntry E) (he : .ok e ∈ readDir.resultsList) : e.depth ≤ spec.depth + 1 :=
    (atDepth_read hkeeps hok (.ok e) he).1.le.trans (min_le_left _ _)
  rw [← Nat.zero_add ((fs.maxLinks + 1) * Nat.card ι + 1)]
  exact hforest.depth_le hread hroot hshallow visit hvisit e hitem

/-- The statement above for the walk from `/r`: it enters the directory `x` forty times, by ever
longer paths, until the operating system follows no further link. -/
theorem FileSystem.exists_completes_linked_twice :
    ∃ items : List (Except Error (DirEntry Unit)), items.length = 42 ∧
      CompletesOnly (FileSystem.linkedFs.host true) followOptions
        ⟨[.rootDir, .normal [114]]⟩ () 0 items := by
  obtain ⟨items, honly, -⟩ := FileSystem.exists_completes (E := Unit) FileSystem.linkedFs true
    followOptions rfl ⟨[.rootDir, .normal [114]]⟩ () 0
  have hserial := honly.only _ (.serial ⟨150, by decide +kernel, rfl⟩)
  refine ⟨items, ?_, honly⟩
  rw [← hserial]
  decide +kernel

end Walks

end JwalkMeta
