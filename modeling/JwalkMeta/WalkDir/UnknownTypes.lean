import JwalkMeta.WalkDir.Alignment

/-!
# Streaming with unknown types

A file system may leave the type byte of a directory record unknown. The entry for such a record
gets its type from a `stat`, and asks for a read if that reveals a directory. The streaming
enumeration looks at the type byte only. When it has scheduled nothing, the regular scheduling makes
up for it; when it has, the regular scheduling is left out, and the directories with unknown type
are missed.

## Main definitions

* `revealsDirectory`: the `stat` of a record reports a directory.

## Main results

* `alignedAt_linux_unknown_iff`: when a streaming read that does not follow links is aligned.
-/

namespace JwalkMeta

variable {B E : Type}

/-- The `stat` of a record reports a directory: what was fetched in advance, else `statx`, else
`fstatat`. -/
def revealsDirectory (os : LinuxCalls) (path : Path) (info : LinuxDirEntryOwned) : Bool :=
  match statOf os info path true with
  | some (mode, _, _) => (fileTypeFromMode mode).isDir
  | none => false

variable [Inhabited E]

/-- The read that the entry for a record asks for, if links are not followed. -/
theorem childSpec_linuxResult_unfollowed (os : LinuxCalls) (opts : WalkDirOptions B E)
    (hfollow : opts.followLinks = false) (req : ReadRequest B)
    (hdepth : req.readDirContentsDepth ≠ 0) (info : LinuxDirEntryOwned) :
    (linuxResult (E := E) os opts req info).bind (ReadDir.childSpec req.clientReadState) =
      if !(opts.skipHidden && isHidden info.name) &&
          (info.dType == DT_DIR || info.dType == DT_UNKNOWN && revealsDirectory os req.path info)
        then some (subdirSpec req info.name)
      else none := by
  by_cases hunknown : info.dType = DT_UNKNOWN
  · by_cases hhidden : (opts.skipHidden && isHidden info.name) = true
    · simp [linuxResult, hhidden]
    · have hregular : (fileTypeFromMode S_IFREG).isDir = false := by decide
      have hdtype : fileTypeFromDtype DT_UNKNOWN = none := by decide
      have hne : (DT_UNKNOWN == DT_DIR) = false := by decide
      rw [linuxResult, if_neg hhidden, Option.bind_some]
      unfold makeDirEntryLinux revealsDirectory
      simp only [hunknown, BEq.rfl, Bool.or_true, hdtype, Option.getD_none, hfollow]
      cases statOf os info req.path true with
      | none =>
        simp only [childSpec_processDirEntryResult _ _ _ hdepth, hregular]
        simp [hne]
      | some stat =>
        simp only [childSpec_processDirEntryResult _ _ _ hdepth, ↓reduceIte]
        simp [hne, hhidden]
  · rw [childSpec_linuxResult os opts req hdepth info hunknown, asksLinux, hfollow]
    simp [hunknown]

/-- **When a streaming read of Linux meets unknown types.** The enumeration succeeds and links are
not followed. Then the counted child reads are, one for one and in the same order, those that the
entries ask for if and only if no visible record has the type byte of a directory, or the `stat` of
no visible record with unknown type reports a directory. -/
theorem alignedAt_linux_unknown_iff (os : LinuxCalls) (opts : WalkDirOptions B E)
    (hsort : opts.sort = false) (hprocess : opts.processReadDir = none)
    (hfollow : opts.followLinks = false) (weighted : Weighted (ReadDirSpec B))
    (hdepth : saturatingAdd weighted.value.depth 1 ≤ opts.maxDepth)
    (hok : (linuxRecords os weighted.value.path 0).error = none) :
    (coreReadDirCallback (E := E) (.linux os) opts).AlignedAt weighted ↔
      (∀ info ∈ visibleLinux opts (linuxRecords os weighted.value.path 0).records,
        info.dType ≠ DT_DIR) ∨
      (∀ info ∈ visibleLinux opts (batchStatx os opts weighted.value.path
          (linuxRecords os weighted.value.path 0).records),
        info.dType = DT_UNKNOWN → revealsDirectory os weighted.value.path info = false) := by
  set records := (linuxRecords os weighted.value.path 0).records with hrecords
  set req := coreRequest os.toSystemCalls opts weighted with hreq
  have hpath : req.path = weighted.value.path := rfl
  obtain ⟨statx, hbatch, -⟩ := batchStatx_eq os opts req.path records
  -- the batch does not change what the enumeration schedules
  have hscheduled : (records.filter fun info =>
        !(opts.skipHidden && isHidden info.name) && info.dType == DT_DIR).map
          (fun info => subdirSpec req info.name) =
      ((batchStatx os opts req.path records).filter fun info =>
        !(opts.skipHidden && isHidden info.name) && info.dType == DT_DIR).map
          fun info => subdirSpec req info.name := by
    rw [hbatch, List.filter_map, List.map_map]
    rfl
  have hresults : ((batchStatx os opts req.path records).filterMap
        (linuxResult (E := E) os opts req)).filterMap (ReadDir.childSpec req.clientReadState) =
      ((batchStatx os opts req.path records).filter fun info =>
        !(opts.skipHidden && isHidden info.name) && (info.dType == DT_DIR ||
          info.dType == DT_UNKNOWN && revealsDirectory os req.path info)).map
            fun info => subdirSpec req info.name := by
    rw [List.filterMap_filterMap]
    exact Selection.filterMap_ite fun info _ =>
      childSpec_linuxResult_unfollowed os opts hfollow req (saturatingAdd_one_ne_zero _) info
  refine (alignedAt_linux_streaming_iff os hsort hprocess hdepth hok).trans (or_congr Iff.rfl ?_)
  refine (Eq.congr hscheduled hresults).trans ?_
  -- what is scheduled is asked for, so the picks differ by the revealed directories
  rw [Selection.map_filter_eq_iff_of_imp fun info _ h => by
    simp only [Bool.and_eq_true] at h
    simp [h.1, h.2]]
  simp only [visibleLinux, List.mem_filter, and_imp, hpath]
  refine forall₂_congr fun info _ => ?_
  have hne : DT_DIR ≠ DT_UNKNOWN := by decide
  by_cases hdir : info.dType = DT_DIR
  · simp [hdir, hne]
  · by_cases hunknown : info.dType = DT_UNKNOWN <;> simp [hdir, hunknown, hne.symm]

/-- A Linux where every directory holds the same records and every `stat` reports a directory. -/
def statLinux (records : List (UInt8 × OsString)) : LinuxCalls :=
  { LinuxCalls.listing fun _ => ⟨records, none⟩ with
    fstatat := fun _ _ => .ok
      ⟨S_IFDIR, 0, 0, 0, 0, 0, 0, 0, 2, 1, 1, 4096, 0, 0, 0, 0⟩ }

/-- The statement above for a directory whose only record has an unknown type: its read is
aligned. -/
theorem alignedAt_linux_unknown_only :
    (coreReadDirCallback (E := Unit) (.linux (statLinux [(DT_UNKNOWN, [117])]))
      (WalkDirOptions.new : WalkDirOptions Unit Unit)).AlignedAt itemR :=
  (alignedAt_linux_unknown_iff (statLinux [(DT_UNKNOWN, [117])]) .new rfl rfl rfl itemR (by decide)
    rfl).mpr (Or.inl (by decide))

/-- A directory with a subdirectory `d` and a record `u` of unknown type that is a directory too:
`u` asks for a read that is not counted. -/
theorem not_alignedAt_linux_dir_and_unknown :
    (WalkDirOptions.new : WalkDirOptions Unit Unit).sort = false ∧
    (WalkDirOptions.new : WalkDirOptions Unit Unit).processReadDir.isNone = true ∧
    (WalkDirOptions.new : WalkDirOptions Unit Unit).followLinks = false ∧
    (linuxRecords (statLinux [(DT_DIR, [100]), (DT_UNKNOWN, [117])]) itemR.value.path 0).error =
      none ∧
    ¬ (coreReadDirCallback (E := Unit)
      (.linux (statLinux [(DT_DIR, [100]), (DT_UNKNOWN, [117])]))
      (WalkDirOptions.new : WalkDirOptions Unit Unit)).AlignedAt itemR := by
  refine ⟨rfl, rfl, rfl, rfl, ?_⟩
  decide +kernel

end JwalkMeta
