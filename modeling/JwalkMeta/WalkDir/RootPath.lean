import JwalkMeta.WalkDir.FileSystem

/-!
# The path of an entry made from its path

`DirEntry::from_path` splits a path into its parent and its file name, and `DirEntry::path` joins
the two again. A path that ends in `..` has no file name; the source takes the whole path in its
place, and the join then repeats the part before the `..`. Nothing is repeated where the path is
absolute, because joining with an absolute path replaces the left side, and where at most a leading
`.` stands before the `..`.

Source: `src/core/dir_entry.rs`.

## Main definitions

* `Path.Spelled`: the sequences of components that a path can have.
* `DirEntry.Reports`: an entry reports the path that it was made from.

## Main results

* `Path.ofOsStr_asOsStr`: the spelling of a path spells that path.
* `DirEntry.reports_iff`: which paths are reported.
-/

namespace JwalkMeta

namespace Path

/-! ### Paths and their spelling -/

/-- The components that can stand behind the first place of a path. -/
def IsInner : Component → Prop
  | .rootDir | .curDir => False
  | .parentDir => True
  | .normal name => name ≠ [] ∧ (47 : UInt8) ∉ name ∧ name ≠ [46] ∧ name ≠ [46, 46]

/-- The sequences of components that a path can have: the root and `.` stand in the first place
only. -/
def Spelled (p : Path) : Prop :=
  ∃ inner : List Component, (∀ c ∈ inner, IsInner c) ∧
    (p.components = inner ∨ p.components = .rootDir :: inner ∨ p.components = .curDir :: inner)

theorem not_mem_of_mem_splitOn {s piece : OsString} (h : piece ∈ s.splitOn 47) :
    (47 : UInt8) ∉ piece := by
  induction s generalizing piece with
  | nil => simp_all
  | cons byte s ih =>
    obtain ⟨first, rest, hsplit⟩ := List.exists_cons_of_ne_nil (List.splitOn_ne_nil 47 s)
    rw [List.splitOn_cons_eq_if_modifyHead, hsplit] at h
    rw [hsplit] at ih
    split_ifs at h with hbyte
    · rcases List.mem_cons.mp h with rfl | h
      · exact List.not_mem_nil
      · exact ih h
    · rcases List.mem_cons.mp h with rfl | h
      · have hne : (47 : UInt8) ≠ byte := fun heq => hbyte (by simp [heq])
        simp [hne, ih List.mem_cons_self]
      · exact ih (List.mem_cons_of_mem first h)

theorem isInner_of_pieceComponent {piece : OsString} {c : Component} (hslash : (47 : UInt8) ∉ piece)
    (h : pieceComponent piece = some c) : IsInner c := by
  rw [pieceComponent] at h
  split_ifs at h with hnone hparent
  · obtain rfl := Option.some.inj h
    trivial
  · obtain rfl := Option.some.inj h
    rw [not_or] at hnone
    exact ⟨hnone.1, hslash, hnone.2, hparent⟩

/-- Every byte string spells such a sequence. -/
theorem spelled_ofOsStr (s : OsString) : (ofOsStr s).Spelled := by
  refine ⟨(s.splitOn 47).filterMap pieceComponent, ?_, ?_⟩
  · intro c hc
    obtain ⟨piece, hpiece, hc⟩ := List.mem_filterMap.mp hc
    exact isInner_of_pieceComponent (not_mem_of_mem_splitOn hpiece) hc
  · rw [ofOsStr]
    split_ifs
    · exact .inr (.inl rfl)
    · exact .inr (.inr rfl)
    · exact .inl rfl

theorem IsInner.pieceComponent_eq {c : Component} (h : IsInner c) :
    pieceComponent (componentOsStr c) = some c := by
  cases c with
  | rootDir | curDir => exact h.elim
  | parentDir => rfl
  | normal name =>
    obtain ⟨hne, -, hdot, hdots⟩ := h
    simp [pieceComponent, componentOsStr, hne, hdot, hdots]

theorem IsInner.head_ne {c : Component} (h : IsInner c) :
    componentOsStr c ≠ [] ∧ (47 : UInt8) ∉ componentOsStr c ∧ componentOsStr c ≠ [46] := by
  cases c with
  | rootDir | curDir => exact h.elim
  | parentDir => simp [componentOsStr]
  | normal name => exact ⟨h.1, h.2.1, h.2.2.1⟩

theorem filterMap_pieceComponent {inner : List Component} (h : ∀ c ∈ inner, IsInner c) :
    (inner.map componentOsStr).filterMap pieceComponent = inner := by
  rw [List.filterMap_map]
  calc inner.filterMap (pieceComponent ∘ componentOsStr)
      = inner.filterMap some := List.filterMap_congr fun c hc => (h c hc).pieceComponent_eq
    _ = inner := List.filterMap_some

theorem head?_intercalate {piece : OsString} (hne : piece ≠ []) (pieces : List OsString) :
    (List.intercalate [47] (piece :: pieces)).head? = piece.head? := by
  cases pieces with
  | nil => simp
  | cons next pieces =>
    rw [List.intercalate_cons_cons, List.append_assoc, List.head?_append_of_ne_nil _ hne]

/-- **The spelling of a path spells that path.** -/
theorem ofOsStr_asOsStr {p : Path} (h : p.Spelled) : ofOsStr p.asOsStr = p := by
  obtain ⟨inner, hinner, hcomponents⟩ := h
  rcases p with ⟨components⟩
  have hslash : ∀ piece ∈ inner.map componentOsStr, (47 : UInt8) ∉ piece := by
    rintro piece hpiece
    obtain ⟨c, hc, rfl⟩ := List.mem_map.mp hpiece
    exact (hinner c hc).head_ne.2.1
  have hpieces := filterMap_pieceComponent hinner
  rcases hcomponents with h | h | h <;> simp only at h <;> rw [h]
  · have hroot : inner ≠ [.rootDir] := fun heq => (hinner .rootDir (by simp [heq])).elim
    rw [asOsStr, if_neg hroot]
    cases inner with
    | nil => rfl
    | cons c inner =>
      obtain ⟨hne, hnot, hdot⟩ := (hinner c List.mem_cons_self).head_ne
      have hhead : (componentOsStr c).head? ≠ some 47 := fun heq =>
        hnot (List.mem_of_mem_head? heq)
      rw [List.map_cons] at hslash hpieces
      rw [ofOsStr, List.map_cons, head?_intercalate hne,
        List.splitOn_intercalate _ hslash (List.cons_ne_nil _ _), hpieces]
      simp [hhead, hdot]
  · cases inner with
    | nil => rfl
    | cons c inner =>
      rw [asOsStr, if_neg (by simp), ofOsStr,
        List.splitOn_intercalate _ (by simpa [componentOsStr] using hslash) (by simp),
        List.map_cons, List.filterMap_cons_none (by rfl), hpieces]
      simp [componentOsStr]
  · rw [asOsStr, if_neg (by simp), ofOsStr, List.map_cons,
      head?_intercalate (by simp [componentOsStr]),
      List.splitOn_intercalate _ (by simpa [componentOsStr] using hslash) (by simp),
      List.filterMap_cons_none (by rfl), hpieces]
    simp [componentOsStr]

/-- A name spells the path of this one component. -/
theorem ofOsStr_name {name : OsString} (h : IsInner (.normal name)) :
    ofOsStr name = ⟨[.normal name]⟩ := by
  have hspell : (⟨[.normal name]⟩ : Path).asOsStr = name := by simp [asOsStr, componentOsStr]
  have hround :=
    ofOsStr_asOsStr (p := ⟨[.normal name]⟩) ⟨[.normal name], by simpa using h, .inl rfl⟩
  rwa [hspell] at hround

/-! ### Splitting a path and joining it again -/

/-- The path that `from_path` and `DirEntry::path` make of a path: its parent, joined with its file
name or, where it has none, with the whole path. -/
def rejoined (p : Path) : Path := (p.parent.getD ⟨[]⟩).join (p.fileName.getD p.asOsStr)

theorem rejoined_of_normal {p : Path} (h : p.Spelled) {before : List Component} {name : OsString}
    (hlast : p.components = before ++ [.normal name]) : p.rejoined = p := by
  obtain ⟨inner, hinner, hcomponents⟩ := h
  have hmem : Component.normal name ∈ inner := by
    have hend : Component.normal name ∈ p.components := by simp [hlast]
    rcases hcomponents with h | h | h <;> simpa [h] using hend
  have hname := ofOsStr_name (hinner _ hmem)
  have hparent : p.parent = some ⟨before⟩ := by simp [parent, hlast]
  have hfileName : p.fileName = some name := by simp [fileName, hlast]
  rw [rejoined, hparent, hfileName, Option.getD_some, Option.getD_some, join, hname, joinPath]
  rcases p with ⟨components⟩
  obtain rfl : components = before ++ [.normal name] := hlast
  cases before <;> simp [isAbsolute]

/-- A path without a file name is joined with its parent as a whole. -/
theorem rejoined_of_parentDir {p : Path} (h : p.Spelled) {before : List Component}
    (hlast : p.components = before ++ [.parentDir]) :
    p.rejoined = (⟨before⟩ : Path).joinPath p := by
  have hparent : p.parent = some ⟨before⟩ := by simp [parent, hlast]
  have hfileName : p.fileName = none := by simp [fileName, hlast]
  rw [rejoined, hparent, hfileName, Option.getD_some, Option.getD_none, join, ofOsStr_asOsStr h]

/-- Behind the first place all components are inner ones. -/
theorem Spelled.before_eq_nil {p : Path} (h : p.Spelled) {before : List Component}
    {last : Component} (hlast : p.components = before ++ [last]) (hinner : ¬ IsInner last) :
    before = [] := by
  obtain ⟨inner, hall, hcomponents⟩ := h
  have hnot : last ∉ inner := fun hmem => hinner (hall last hmem)
  rcases hcomponents with h | h | h <;> rw [hlast] at h
  · exact absurd (by simp [← h]) hnot
  all_goals
    cases before with
    | nil => rfl
    | cons first before =>
      obtain ⟨-, hrest⟩ := List.cons.inj h
      exact absurd (by simp [← hrest]) hnot

/-- A relative path that is `.` only before its final `..` is `..` or `./..`. -/
theorem Spelled.before_of_curDir {p : Path} (h : p.Spelled) {before : List Component}
    (hlast : p.components = before ++ [.parentDir]) (hdots : ∀ c ∈ before, c = .curDir) :
    before = [] ∨ before = [.curDir] := by
  obtain ⟨inner, hall, hcomponents⟩ := h
  have hnot : Component.curDir ∉ inner := fun hmem => hall _ hmem
  cases before with
  | nil => exact .inl rfl
  | cons first before =>
    obtain rfl := hdots first List.mem_cons_self
    rcases hcomponents with h | h | h <;> rw [hlast] at h
    · exact absurd (by simp [← h]) hnot
    · simp at h
    · obtain ⟨-, hrest⟩ := List.cons.inj h
      cases before with
      | nil => exact .inr rfl
      | cons second before =>
        obtain rfl := hdots second (by simp)
        exact absurd (by simp [← hrest]) hnot

/-- **Which paths are put together again.** One that ends in `..` has to be absolute, or at most a
leading `.` stands before the `..`. -/
theorem rejoined_eq_iff {p : Path} (h : p.Spelled) :
    p.rejoined = p ↔ ∀ before, p.components = before ++ [.parentDir] →
      p.isAbsolute = true ∨ before = [] ∨ before = [.curDir] := by
  rcases List.eq_nil_or_concat' p.components with hnil | ⟨before, last, hlast⟩
  · rcases p with ⟨components⟩
    obtain rfl : components = [] := hnil
    exact ⟨fun _ => by simp, fun _ => by decide⟩
  · cases last with
    | normal name =>
      refine ⟨fun _ before' hbefore => ?_, fun _ => rejoined_of_normal h hlast⟩
      simp [hlast] at hbefore
    | rootDir | curDir =>
      obtain rfl := h.before_eq_nil hlast id
      rcases p with ⟨components⟩
      simp only [List.nil_append] at hlast
      obtain rfl := hlast
      exact ⟨fun _ before' hbefore => by simp [List.singleton_eq_append_iff] at hbefore,
        fun _ => by decide⟩
    | parentDir =>
      rw [rejoined_of_parentDir h hlast]
      constructor
      · intro heq before' hbefore
        obtain rfl : before = before' := List.append_cancel_right (hlast.symm.trans hbefore)
        by_contra hnot
        obtain ⟨habsolute, hnot⟩ := not_or.mp hnot
        have hne : before ≠ [] := fun hnil => hnot (.inl hnil)
        -- the join repeats what stands before the `..`, but for a leading `.`
        have hfilter : (before ++ [Component.parentDir]).filter (· != .curDir) = [.parentDir] := by
          simpa [joinPath, habsolute, hne, hlast] using congrArg Path.components heq
        have hnone : before.filter (· != .curDir) = [] := by simpa using hfilter
        refine hnot (h.before_of_curDir hlast fun c hc => ?_)
        by_contra hother
        exact List.filter_eq_nil_iff.mp hnone c hc (by simpa using hother)
      · intro hcondition
        rcases p with ⟨components⟩
        obtain rfl : components = before ++ [.parentDir] := hlast
        rcases hcondition before rfl with habsolute | rfl | rfl
        · simp [joinPath, habsolute]
        · rfl
        · rfl

end Path

/-! ### The entry of the root -/

namespace DirEntry

variable {E : Type}

/-- An entry reports the path that it was made from: by its own path, which is the one that its
children are read from. -/
def Reports (e : DirEntry E) (path : Path) : Prop :=
  e.path = path ∧ ∀ readPath ∈ e.readChildrenPath, e.path = readPath

theorem path_fromPath [Inhabited E] {os : SystemCalls} {depth : ℕ} {path : Path}
    {readMetadata readMetadataExt followLink : Bool} {ancestors : Option (List AncestorIdentity)}
    {e : DirEntry E}
    (he : fromPath os depth path readMetadata readMetadataExt followLink ancestors = .ok e) :
    e.path = path.rejoined ∧ ∀ readPath ∈ e.readChildrenPath, readPath = path := by
  rw [fromPath] at he
  cases hmetadata : (if followLink then os.metadata path else os.symlinkMetadata path) with
  | error err => simp [hmetadata] at he
  | ok metadata =>
    rw [hmetadata] at he
    obtain rfl := Except.ok.inj he
    refine ⟨rfl, fun readPath hread => ?_⟩
    simp only [Option.mem_def, Option.ite_none_right_eq_some, Option.some.injEq] at hread
    exact hread.2.symm

/-- **Which paths the entry of the root reports.** The root path is any byte string. If the path
that it spells ends in `..`, then it is absolute, or nothing or a leading `.` alone stands before
the `..`. -/
theorem reports_iff [Inhabited E] (os : SystemCalls) (depth : ℕ) (root : OsString)
    (readMetadata readMetadataExt followLink : Bool) (ancestors : Option (List AncestorIdentity))
    (e : DirEntry E)
    (he : fromPath os depth (.ofOsStr root) readMetadata readMetadataExt followLink ancestors =
      .ok e) :
    e.Reports (.ofOsStr root) ↔
      ∀ before, (Path.ofOsStr root).components = before ++ [.parentDir] →
        (Path.ofOsStr root).isAbsolute = true ∨ before = [] ∨ before = [.curDir] := by
  obtain ⟨hpath, hread⟩ := path_fromPath he
  rw [← Path.rejoined_eq_iff (Path.spelled_ofOsStr root), Reports, hpath]
  refine ⟨And.left, fun heq => ⟨heq, fun readPath hmem => ?_⟩⟩
  rw [heq, hread readPath hmem]

/-- A system where every path leads to a directory. -/
def directoriesOnly : SystemCalls where
  metadata := fun _ => .ok (.ofMode S_IFDIR 1 1)
  symlinkMetadata := fun _ => .ok (.ofMode S_IFDIR 1 1)
  readLink := fun _ => .error (.os 22)
  canonicalize := .ok

/-- The statement above for the root path `/a/..`: it ends in `..` and is absolute, so its entry
reports it. -/
theorem reports_iff_absolute :
    ∃ e : DirEntry Unit,
      fromPath directoriesOnly 0 (.ofOsStr [47, 97, 47, 46, 46]) false false false none = .ok e ∧
      e.Reports (.ofOsStr [47, 97, 47, 46, 46]) := by
  refine ⟨_, rfl, ?_⟩
  rw [reports_iff directoriesOnly 0 [47, 97, 47, 46, 46] false false false none _ rfl]
  exact fun before _ => Or.inl (by decide +kernel)

/-- The entry of the root path `a/..` reports the path `a/a/..`. -/
theorem not_reports_parent :
    ∃ e : DirEntry Unit,
      fromPath directoriesOnly 0 (.ofOsStr [97, 47, 46, 46]) false false false none = .ok e ∧
      e.path = ⟨[.normal [97], .normal [97], .parentDir]⟩ ∧
      ¬ e.Reports (.ofOsStr [97, 47, 46, 46]) := by
  have hroot : Path.ofOsStr [97, 47, 46, 46] = ⟨[.normal [97], .parentDir]⟩ := by
    decide +kernel
  rw [hroot]
  refine ⟨_, rfl, ?_, ?_⟩
  · decide +kernel
  · rintro ⟨hpath, -⟩
    revert hpath
    decide +kernel

end DirEntry

end JwalkMeta
